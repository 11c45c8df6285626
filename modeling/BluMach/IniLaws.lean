-- What `ini_read_ex` makes of a file, a piece at a time: which names fit into `sname` and `ename`,
-- what a line does to the list, and a file as the pieces it is read in.
import BluMach.Ini
import Mathlib.Data.List.TakeWhile
import Mathlib.Data.List.Infix

namespace blumach.ini

open utf8_text line_reader

/-! ## Names -/

/-- Each character's bytes fit behind one byte for each character in front of it, and the NUL
behind one for each. -/
def Fits (d : Nat) : List Char → Prop
  | [] => d < 128
  | c :: w => d + (wctomb c).length ≤ 128 ∧ Fits (d + 1) w

instance fits_decidable (d : Nat) : (w : List Char) → Decidable (Fits d w)
  | [] => inferInstanceAs (Decidable (d < 128))
  | c :: w =>
    have := fits_decidable (d + 1) w
    inferInstanceAs (Decidable (d + (wctomb c).length ≤ 128 ∧ Fits (d + 1) w))

theorem wctomb_pos (c : Char) : 0 < (wctomb c).length := by
  rw [wctomb, String.length_utf8EncodeChar]
  exact c.utf8Size_pos

/-- A name of at most 127 bytes fits. -/
theorem fits_of_bytes {d : Nat} {w : List Char} (hw : d + (encode w).length < 128) : Fits d w := by
  induction w generalizing d with
  | nil => exact hw
  | cons c w ih =>
    rw [encode_cons, List.length_append] at hw
    have hpos : 0 < (String.utf8EncodeChar c).length := wctomb_pos c
    refine ⟨?_, ih (by omega)⟩
    rw [wctomb]
    omega

/-- Of bytes put at `d`, the first is the one that the next bytes leave. -/
theorem put_spec {buffer next bytes : List UInt8} {d : Nat} {b : UInt8} (hd : d ≤ buffer.length)
    (hput : put buffer d (b :: bytes) = some next) :
    d + 1 ≤ next.length ∧ next.take (d + 1) = buffer.take d ++ [b] := by
  rw [put] at hput
  by_cases hfits : d + (b :: bytes).length ≤ 128
  · rw [if_pos hfits] at hput
    have hnext : next = buffer.take d ++ b :: (bytes ++ buffer.drop (d + (b :: bytes).length)) := by
      rw [← Option.some.inj hput, List.append_assoc, List.cons_append]
    have hlen : (buffer.take d).length = d := List.length_take_of_le hd
    subst hnext
    constructor
    · rw [List.length_append, hlen, List.length_cons]
      omega
    · rw [List.take_append, hlen, List.take_of_length_le (by omega), Nat.add_sub_cancel_left]
      rfl
  · rw [if_neg hfits] at hput
    exact nomatch hput

theorem copy_loop_spec (w : List Char) {buffer : List UInt8} {d : Nat} (hd : d ≤ buffer.length) :
    (Fits d w → ∃ stale, copy_loop buffer d w = some (buffer.take d ++ w.map lead ++ 0 :: stale)) ∧
      (¬ Fits d w → copy_loop buffer d w = none) := by
  induction w generalizing buffer d with
  | nil =>
    constructor
    · intro hfits
      refine ⟨buffer.drop (d + 1), ?_⟩
      have hlt : d + [(0 : UInt8)].length ≤ 128 := hfits
      rw [copy_loop, put, if_pos hlt, List.map_nil, List.append_nil, List.append_assoc]
      rfl
    · intro hfits
      exact if_neg hfits
  | cons c w ih =>
    by_cases hput : d + (wctomb c).length ≤ 128
    · obtain ⟨next, hnext⟩ : ∃ next, put buffer d (wctomb c) = some next := ⟨_, if_pos hput⟩
      have hspec := hnext
      rw [wctomb, encodeChar_eq] at hspec
      obtain ⟨hlen, htake⟩ := put_spec hd hspec
      obtain ⟨hyes, hno⟩ := ih hlen
      rw [copy_loop, hnext, Option.bind_some]
      constructor
      · rintro ⟨-, hfits⟩
        obtain ⟨stale, hstale⟩ := hyes hfits
        refine ⟨stale, ?_⟩
        rw [hstale, htake, List.append_assoc (buffer.take d), List.map_cons]
        rfl
      · intro hfits
        exact hno fun h => hfits ⟨hput, h⟩
    · constructor
      · intro hfits
        exact absurd hfits.1 hput
      · intro _
        rw [copy_loop, put, if_neg hput]
        rfl

theorem lead_ne_zero {c : Char} (hc : c ≠ '\x00') : lead c ≠ 0 := by
  intro hzero
  have hval : c.val ≤ 127 := lead_lt.mp (by rw [hzero]; decide)
  have henc : encode [c] = encode ['\x00'] := by
    rw [encode_cons, encodeChar_ascii hval, ← lead_ascii hval, hzero]
    rfl
  exact hc (List.cons.inj (encode_injective henc)).1

/-- Of each character a name keeps the first byte. -/
theorem copy_name_spec {w : List Char} (hw : '\x00' ∉ w) :
    copy_name w = if Fits 0 w then some (w.map lead) else none := by
  obtain ⟨hyes, hno⟩ := copy_loop_spec w (Nat.zero_le ([] : List UInt8).length)
  by_cases hfits : Fits 0 w
  · obtain ⟨stale, hstale⟩ := hyes hfits
    have hleads : ∀ b ∈ w.map lead, decide (b ≠ 0) = true := by
      intro b hb
      obtain ⟨c, hc, rfl⟩ := List.mem_map.mp hb
      exact decide_eq_true (lead_ne_zero fun h => hw (h ▸ hc))
    rw [if_pos hfits, copy_name, hstale, Option.map_some, List.take_nil, List.nil_append,
      List.takeWhile_append_of_pos hleads, List.takeWhile_cons_of_neg (by decide), List.append_nil]
  · rw [if_neg hfits, copy_name, hno hfits]
    rfl

/-! ## Lines -/

/-- What a line does to the list. -/
inductive Line where
  | nothing
  | section_line (name : List UInt8)
  | entry_line (ne : Entry_t)

def Reading.take (r : Reading) : Line → Reading
  | .nothing => r
  | .section_line name => r.open_section name
  | .entry_line ne => r.add_entry ne

def section_name (line : List Char) : List Char := line.takeWhile (· ≠ ']')

def entry_name (line : List Char) : List Char := line.takeWhile fun c => !ends_name c

def entry_value (line : List Char) : List Char :=
  (line.dropWhile fun c => !ends_name c).dropWhile ends_name

/-- The characters of a line that are copied into `sname` or `ename`. -/
def name_part : List Char → List Char
  | [] => []
  | c :: line =>
    if c = '#' ∨ c = ';' then []
    else if c = '[' then section_name line
    else entry_name (c :: line)

def effect : List Char → Line
  | [] => .nothing
  | c :: line =>
    if c = '#' ∨ c = ';' then .nothing
    else if c = '[' then
      if (line.dropWhile (· ≠ ']')).head? = some ']' then
        .section_line ((section_name line).map lead)
      else .nothing
    else if entry_value (c :: line) = [] then .nothing
    else .entry_line (new_entry ((entry_name (c :: line)).map lead) (entry_value (c :: line)))

/-- A character that starts neither a comment nor a section. -/
def Plain (c : Char) : Prop := c ≠ '#' ∧ c ≠ ';' ∧ c ≠ '['

section

variable {c : Char} {line : List Char}

theorem name_part_comment (hc : c = '#' ∨ c = ';') : name_part (c :: line) = [] := if_pos hc

theorem name_part_section : name_part ('[' :: line) = section_name line := rfl

theorem name_part_entry (hc : Plain c) : name_part (c :: line) = entry_name (c :: line) := by
  rw [name_part, if_neg (not_or.mpr ⟨hc.1, hc.2.1⟩), if_neg hc.2.2]

theorem effect_comment (hc : c = '#' ∨ c = ';') : effect (c :: line) = .nothing := if_pos hc

theorem effect_section :
    effect ('[' :: line) =
      if (line.dropWhile (· ≠ ']')).head? = some ']' then
        .section_line ((section_name line).map lead)
      else .nothing := rfl

theorem effect_entry (hc : Plain c) :
    effect (c :: line) =
      if entry_value (c :: line) = [] then .nothing
      else .entry_line (new_entry ((entry_name (c :: line)).map lead) (entry_value (c :: line))) :=
    by
  rw [effect, if_neg (not_or.mpr ⟨hc.1, hc.2.1⟩), if_neg hc.2.2]

end

theorem mem_strip {c d : Char} {buff : List Char} (h : c ∈ strip d buff) : c ∈ buff := by
  rw [strip] at h
  split_ifs at h
  · exact List.mem_of_mem_dropLast h
  · exact h

/-- A line is what stands in the array, up to its first NUL. -/
theorem nul_not_mem_line (buff : List Char) : '\x00' ∉ line_of buff := by
  intro h
  have hmem : '\x00' ∈ buff.takeWhile (· ≠ '\x00') :=
    mem_strip (mem_strip ((List.dropWhile_sublist _).mem h))
  have hne : decide ('\x00' ≠ '\x00') = true := List.mem_takeWhile_imp (p := (· ≠ '\x00')) hmem
  exact of_decide_eq_true hne rfl

theorem read_section_eq {line : List Char} (hline : '\x00' ∉ line) (r : Reading) :
    read_section line r =
      if Fits 0 (section_name line) then
        some (if (line.dropWhile (· ≠ ']')).head? = some ']' then
          r.open_section ((section_name line).map lead) else r)
      else none := by
  have hname : '\x00' ∉ section_name line := fun h => hline (List.takeWhile_subset _ h)
  rw [read_section, ← section_name, copy_name_spec hname]
  by_cases hfits : Fits 0 (section_name line)
  · rw [if_pos hfits, if_pos hfits]
    by_cases hclosed : (line.dropWhile (· ≠ ']')).head? = some ']'
    · rw [if_pos hclosed]
      exact if_pos hclosed
    · rw [if_neg hclosed]
      exact if_neg hclosed
  · rw [if_neg hfits, if_neg hfits]
    rfl

theorem read_entry_eq {line : List Char} (hline : '\x00' ∉ line) (r : Reading) :
    read_entry line r =
      if Fits 0 (entry_name line) then
        some (if entry_value line = [] then r
          else r.add_entry (new_entry ((entry_name line).map lead) (entry_value line)))
      else none := by
  have hname : '\x00' ∉ entry_name line := fun h => hline (List.takeWhile_subset _ h)
  rw [read_entry, ← entry_name, copy_name_spec hname]
  by_cases hfits : Fits 0 (entry_name line)
  · rw [if_pos hfits, if_pos hfits]
    by_cases hvalue : entry_value line = []
    · rw [if_pos hvalue]
      exact if_pos hvalue
    · rw [if_neg hvalue]
      exact if_neg hvalue
  · rw [if_neg hfits, if_neg hfits]
    rfl

/-- One turn: the name has to fit, and the line then does its effect. -/
theorem read_line_eq (buff : List Char) (r : Reading) :
    read_line buff r =
      if Fits 0 (name_part (line_of buff)) then some (r.take (effect (line_of buff)))
      else none := by
  have hnul := nul_not_mem_line buff
  rw [read_line]
  generalize line_of buff = line at hnul
  cases line with
  | nil => rfl
  | cons c line =>
    have hline : '\x00' ∉ line := fun h => hnul (List.mem_cons_of_mem _ h)
    dsimp only
    by_cases hcomment : c = '#' ∨ c = ';'
    · simp only [if_pos hcomment, name_part_comment hcomment, effect_comment hcomment]
      rfl
    · rw [if_neg hcomment]
      by_cases hsection : c = '['
      · subst hsection
        rw [if_pos rfl, read_section_eq hline, effect_section]
        by_cases hfits : Fits 0 (name_part ('[' :: line))
        · have hname : Fits 0 (section_name line) := hfits
          rw [if_pos hfits, if_pos hname]
          split_ifs <;> rfl
        · have hname : ¬ Fits 0 (section_name line) := hfits
          rw [if_neg hfits, if_neg hname]
      · have hplain : Plain c :=
          ⟨fun h => hcomment (Or.inl h), fun h => hcomment (Or.inr h), hsection⟩
        rw [if_neg hsection, read_entry_eq hnul, effect_entry hplain]
        by_cases hfits : Fits 0 (name_part (c :: line))
        · have hname : Fits 0 (entry_name (c :: line)) := name_part_entry hplain ▸ hfits
          rw [if_pos hfits, if_pos hname]
          split_ifs <;> rfl
        · have hname : ¬ Fits 0 (entry_name (c :: line)) := name_part_entry hplain ▸ hfits
          rw [if_neg hfits, if_neg hname]

/-! ## Files -/

/-- The lines that are read from a file, as they are parsed. -/
def lines_of (file : List Char) : List (List Char) :=
  (pieces '\n' 1023 file).map line_of

def AllFit (file : List Char) : Prop :=
  ∀ line ∈ lines_of file, Fits 0 (name_part line)

instance (file : List Char) : Decidable (AllFit file) := by unfold AllFit; infer_instance

/-- The list that the lines of a file make of one. -/
def result (file : List Char) (r : Reading) : Reading :=
  (lines_of file).foldl (fun r line => r.take (effect line)) r

theorem lines_of_eq (file : List Char) :
    lines_of file =
      if (fgetws 1023 file).2.2 then []
      else line_of (fgetws 1023 file).1 :: lines_of (fgetws 1023 file).2.1 := by
  rw [lines_of, pieces_eq (by decide), apply_ite (List.map line_of)]
  rfl

theorem read_loop_succ (fuel : Nat) (file : List Char) (r : Reading) :
    read_loop (fuel + 1) file r =
      if (fgetws 1023 file).2.2 then .done r
      else if Fits 0 (name_part (line_of (fgetws 1023 file).1)) then
        read_loop fuel (fgetws 1023 file).2.1 (r.take (effect (line_of (fgetws 1023 file).1)))
      else .overflow := by
  have hbuff : ¬ 1024 < (fgetws 1023 file).1.length + 1 := by
    have := length_next '\n' 1023 file
    rw [fgetws]
    omega
  rw [read_loop]
  dsimp only
  rw [if_neg hbuff, read_line_eq]
  split_ifs <;> rfl

/-- With fuel for the characters and the end of the file, the loop comes to an end. -/
theorem read_loop_eq {fuel : Nat} {file : List Char} (hfuel : file.length < fuel) (r : Reading) :
    read_loop fuel file r = if AllFit file then .done (result file r) else .overflow := by
  induction fuel generalizing file r with
  | zero => exact absurd hfuel (Nat.not_lt_zero _)
  | succ fuel ih =>
    have hlines := lines_of_eq file
    rw [read_loop_succ]
    by_cases heof : (fgetws 1023 file).2.2 = true
    · rw [if_pos heof] at hlines
      have hfit : AllFit file := by
        rw [AllFit, hlines]
        exact List.forall_mem_nil _
      rw [if_pos heof, if_pos hfit, result, hlines]
      rfl
    · have hrest : (fgetws 1023 file).2.1.length < file.length :=
        length_rest (by decide) (Bool.eq_false_iff.mpr heof)
      rw [if_neg heof] at hlines
      have hfit : AllFit file ↔
          Fits 0 (name_part (line_of (fgetws 1023 file).1)) ∧ AllFit (fgetws 1023 file).2.1 := by
        rw [AllFit, hlines]
        exact List.forall_mem_cons
      rw [if_neg heof, ih (Nat.lt_of_lt_of_le hrest (Nat.le_of_lt_succ hfuel))]
      by_cases hname : Fits 0 (name_part (line_of (fgetws 1023 file).1))
      · have hrest_fit : AllFit file ↔ AllFit (fgetws 1023 file).2.1 := by
          rw [hfit, and_iff_right hname]
        rw [if_pos hname, result, result, hlines, List.foldl_cons]
        simp only [hrest_fit]
      · rw [if_neg hname, if_neg fun h => hname (hfit.mp h).1]

/-- A run that has ended ends in the same way with more fuel. -/
theorem read_loop_more {fuel : Nat} {file : List Char} {r : Reading}
    (h : read_loop fuel file r ≠ .running) :
    read_loop fuel file r = if AllFit file then .done (result file r) else .overflow := by
  rw [← read_loop_eq (Nat.lt_succ_self _)]
  induction fuel generalizing file r with
  | zero => exact absurd rfl h
  | succ fuel ih =>
    rw [read_loop_succ] at h ⊢
    rw [read_loop_succ]
    by_cases heof : (fgetws 1023 file).2.2 = true
    · rw [if_pos heof, if_pos heof]
    · rw [if_neg heof] at h
      rw [if_neg heof, if_neg heof]
      by_cases hname : Fits 0 (name_part (line_of (fgetws 1023 file).1))
      · rw [if_pos hname] at h
        have hrest : (fgetws 1023 file).2.1.length < file.length :=
          length_rest (by decide) (Bool.eq_false_iff.mpr heof)
        rw [if_pos hname, if_pos hname, ih h, read_loop_eq (Nat.lt_succ_self _),
          read_loop_eq hrest]
      · rw [if_neg hname, if_neg hname]

/-- The list that reading a file gives, with enough fuel. -/
def Reads (file : List Char) (r : Reading) : Prop :=
  ∃ fuel, read_loop fuel file start = .done r

theorem reads_iff {file : List Char} {r : Reading} :
    Reads file r ↔ AllFit file ∧ r = result file start := by
  constructor
  · rintro ⟨fuel, h⟩
    have heq := @read_loop_more fuel file start (by rw [h]; exact nofun)
    rw [h] at heq
    by_cases hfit : AllFit file
    · rw [if_pos hfit] at heq
      exact ⟨hfit, Outcome.done.inj heq⟩
    · rw [if_neg hfit] at heq
      exact nomatch heq
  · rintro ⟨hfit, rfl⟩
    exact ⟨file.length + 1, by rw [read_loop_eq (Nat.lt_succ_self _), if_pos hfit]⟩

/-- Neither an end without names that fit nor one array left without a name that does not. -/
theorem never_overflows {file : List Char} :
    (∀ fuel, read_loop fuel file start ≠ .overflow) ↔ AllFit file := by
  constructor
  · intro h
    by_contra hfit
    have hend := h (file.length + 1)
    rw [read_loop_eq (Nat.lt_succ_self _), if_neg hfit] at hend
    exact hend rfl
  · intro hfit fuel h
    have heq := @read_loop_more fuel file start (by rw [h]; exact nofun)
    rw [h, if_pos hfit] at heq
    exact nomatch heq

theorem always_ends (file : List Char) : ∃ fuel, read_loop fuel file start ≠ .running := by
  refine ⟨file.length + 1, ?_⟩
  rw [read_loop_eq (Nat.lt_succ_self _)]
  split_ifs <;> exact nofun

/-! ## Whole lines -/

section

variable {pre rest line brk : List Char}

theorem lines_of_append (hpre : Whole '\n' pre) :
    lines_of (pre ++ rest) = lines_of pre ++ lines_of rest := by
  rw [lines_of, pieces_append (by decide) hpre, List.map_append, ← lines_of, ← lines_of]

theorem result_append (hpre : Whole '\n' pre) (r : Reading) :
    result (pre ++ rest) r = result rest (result pre r) := by
  rw [result, lines_of_append hpre, List.foldl_append, ← result, ← result]

theorem allFit_append (hpre : Whole '\n' pre) :
    AllFit (pre ++ rest) ↔ AllFit pre ∧ AllFit rest := by
  rw [AllFit, lines_of_append hpre, List.forall_mem_append, ← AllFit, ← AllFit]

/-- A character that neither ends a line nor a string. -/
def Text (c : Char) : Prop := c ≠ '\n' ∧ c ≠ '\r' ∧ c ≠ '\x00'

instance (c : Char) : Decidable (Text c) := by unfold Text; infer_instance

theorem text_of_separator : ∀ c ∈ [' ', '=', ' '], Text c :=
  List.forall_mem_cons.mpr ⟨by decide, List.forall_mem_cons.mpr
    ⟨by decide, List.forall_mem_singleton.mpr (by decide)⟩⟩

theorem not_mem_of_text (htext : ∀ c ∈ line, Text c) :
    '\n' ∉ line ∧ '\r' ∉ line ∧ '\x00' ∉ line :=
  ⟨fun h => (htext _ h).1 rfl, fun h => (htext _ h).2.1 rfl, fun h => (htext _ h).2.2 rfl⟩

theorem strip_append (c : Char) (line : List Char) : strip c (line ++ [c]) = line := by
  rw [strip, if_pos List.getLast?_concat, List.dropLast_concat]

theorem strip_of_not_mem {c : Char} (h : c ∉ line) : strip c line = line :=
  if_neg fun hlast => h (List.mem_of_getLast? hlast)

/-- What `ini_read_ex` takes off the end of a line. -/
inductive Break : List Char → Prop
  | none : Break []
  | newline : Break ['\n']
  | carriage : Break ['\r']
  | both : Break ['\r', '\n']

theorem nul_not_mem_break (hbrk : Break brk) : '\x00' ∉ brk := by
  cases hbrk <;> decide

theorem line_of_text (htext : ∀ c ∈ line, Text c) (hbrk : Break brk) :
    line_of (line ++ brk) = line.dropWhile is_blank := by
  obtain ⟨hn, hr, h0⟩ := not_mem_of_text htext
  have htake : (line ++ brk).takeWhile (· ≠ '\x00') = line ++ brk := by
    rw [List.takeWhile_eq_self_iff]
    intro c hc
    rcases List.mem_append.mp hc with hc | hc
    · exact decide_eq_true (htext c hc).2.2
    · exact decide_eq_true fun h => nul_not_mem_break hbrk (h ▸ hc)
  rw [line_of, htake]
  congr 1
  cases hbrk with
  | none => rw [List.append_nil, strip_of_not_mem hn, strip_of_not_mem hr]
  | newline => rw [strip_append, strip_of_not_mem hr]
  | carriage =>
    rw [strip_of_not_mem (c := '\n') (by simpa using hn), strip_append]
  | both =>
    rw [← List.singleton_append, ← List.append_assoc, strip_append, strip_append]

/-- The end of a line in a file: a newline or a return and a newline. -/
inductive Newline : List Char → Prop
  | newline : Newline ['\n']
  | both : Newline ['\r', '\n']

theorem lines_of_stop (hn : '\n' ∉ line) (hlen : line.length < 1023) :
    lines_of (line ++ '\n' :: rest) = line_of (line ++ ['\n']) :: lines_of rest :=
  congrArg (List.map line_of) (pieces_stop hn hlen)

theorem lines_of_full (rest : List Char) (hn : '\n' ∉ line) (hlen : line.length = 1023) :
    lines_of (line ++ rest) = line_of line :: lines_of rest :=
  congrArg (List.map line_of) (pieces_full (by decide) hn hlen)

theorem line_of_alone (htext : ∀ c ∈ line, Text c) : line_of line = line.dropWhile is_blank := by
  rw [← line_of_text htext .none, List.append_nil]

/-- A line of at most 1023 characters is one of those read, with no other but an empty one. -/
theorem lines_of_line (rest : List Char) (htext : ∀ c ∈ line, Text c)
    (hlen : line.length ≤ 1023) (hbrk : Newline brk) :
    ∃ blank, (∀ l ∈ blank, l = []) ∧
      lines_of (line ++ (brk ++ rest)) = line.dropWhile is_blank :: (blank ++ lines_of rest) := by
  have hn := (not_mem_of_text htext).1
  -- a full array leaves the end of the line to the next turn
  have hstop : lines_of ('\n' :: rest) = [] :: lines_of rest :=
    @lines_of_stop _ [] List.not_mem_nil (Nat.succ_pos 1022)
  have hboth : lines_of ('\r' :: '\n' :: rest) = [] :: lines_of rest :=
    @lines_of_stop _ ['\r'] (by decide) (by decide)
  cases hbrk with
  | newline =>
    rw [List.singleton_append]
    rcases Nat.lt_or_eq_of_le hlen with hlt | hfull
    · refine ⟨[], List.forall_mem_nil _, ?_⟩
      rw [lines_of_stop hn hlt, line_of_text htext .newline, List.nil_append]
    · refine ⟨[[]], List.forall_mem_singleton.mpr rfl, ?_⟩
      rw [lines_of_full _ hn hfull, hstop, line_of_alone htext, List.singleton_append]
  | both =>
    have hn' : '\n' ∉ line ++ ['\r'] := by
      rw [List.mem_append, not_or]
      exact ⟨hn, by decide⟩
    have hassoc : line ++ '\r' :: '\n' :: rest = (line ++ ['\r']) ++ '\n' :: rest := by
      rw [List.append_assoc, List.singleton_append]
    have hlength : (line ++ ['\r']).length = line.length + 1 := List.length_append
    rw [show ['\r', '\n'] ++ rest = '\r' :: '\n' :: rest from rfl]
    rcases Nat.lt_or_eq_of_le hlen with hlt | hfull
    · rw [hassoc]
      rcases Nat.lt_or_eq_of_le hlt with hlt | hfull
      · refine ⟨[], List.forall_mem_nil _, ?_⟩
        rw [lines_of_stop hn' (hlength ▸ hlt), List.append_assoc, List.singleton_append,
          line_of_text htext .both, List.nil_append]
      · refine ⟨[[]], List.forall_mem_singleton.mpr rfl, ?_⟩
        rw [lines_of_full _ hn' (hlength.trans hfull), hstop, line_of_text htext .carriage,
          List.singleton_append]
    · refine ⟨[[]], List.forall_mem_singleton.mpr rfl, ?_⟩
      rw [lines_of_full _ hn hfull, hboth, line_of_alone htext, List.singleton_append]

theorem allFit_line (htext : ∀ c ∈ line, Text c) (hlen : line.length ≤ 1023)
    (hbrk : Newline brk) :
    AllFit (line ++ (brk ++ rest)) ↔ Fits 0 (name_part (line.dropWhile is_blank)) ∧
      AllFit rest := by
  obtain ⟨blank, hblank, hlines⟩ := lines_of_line rest htext hlen hbrk
  have hfits : ∀ l ∈ blank, Fits 0 (name_part l) := by
    intro l hl
    rw [hblank l hl]
    decide
  rw [AllFit, hlines, List.forall_mem_cons, List.forall_mem_append, ← AllFit]
  exact and_congr_right fun _ => and_iff_right hfits

theorem result_line (htext : ∀ c ∈ line, Text c) (hlen : line.length ≤ 1023)
    (hbrk : Newline brk) (r : Reading) :
    result (line ++ (brk ++ rest)) r =
      result rest (r.take (effect (line.dropWhile is_blank))) := by
  obtain ⟨blank, hblank, hlines⟩ := lines_of_line rest htext hlen hbrk
  have hnothing (r : Reading) : blank.foldl (fun r line => r.take (effect line)) r = r := by
    clear hlines
    induction blank with
    | nil => rfl
    | cons l blank ih =>
      rw [List.forall_mem_cons] at hblank
      rw [List.foldl_cons, hblank.1]
      exact ih hblank.2
  rw [result, hlines, List.foldl_cons, List.foldl_append, hnothing, ← result]

/-- Characters behind the last newline that do not fill the array are not read. -/
theorem lines_of_short (htext : ∀ c ∈ line, Text c) (hlen : line.length < 1023) :
    lines_of line = [] := by
  rw [lines_of, pieces_end (not_mem_of_text htext).1 hlen]
  rfl

theorem lines_of_last (htext : ∀ c ∈ line, Text c) (hlen : line.length = 1023) :
    lines_of line = [line.dropWhile is_blank] := by
  have hnil : lines_of [] = [] := rfl
  have hfull := lines_of_full [] (not_mem_of_text htext).1 hlen
  rwa [List.append_nil, line_of_alone htext, hnil] at hfull

end

/-! ## Lines with a name and a value -/

/-- A name that starts no comment and no section and is not indented. -/
structure EntryName (name : List Char) : Prop where
  named : name ≠ []
  text : ∀ c ∈ name, Text c ∧ c ≠ '=' ∧ c ≠ ' '
  start : ∀ c, name.head? = some c → Plain c ∧ c ≠ '\t'

section

variable {name : List Char} (value : List Char)

theorem ends_name_iff (c : Char) : ends_name c = true ↔ c = '=' ∨ c = ' ' := by
  rw [ends_name, Bool.or_eq_true, decide_eq_true_iff, decide_eq_true_iff]

theorem EntryName.goes_on (h : EntryName name) : ∀ c ∈ name, (!ends_name c) = true := by
  intro c hc
  rw [Bool.not_eq_true', Bool.eq_false_iff, Ne, ends_name_iff, not_or]
  exact (h.text c hc).2

theorem EntryName.entry_name_eq (h : EntryName name) :
    entry_name (name ++ ([' ', '=', ' '] ++ value)) = name := by
  rw [entry_name, List.takeWhile_append_of_pos h.goes_on, List.cons_append,
    List.takeWhile_cons_of_neg (by decide), List.append_nil]

theorem EntryName.entry_value_eq (h : EntryName name) :
    entry_value (name ++ ([' ', '=', ' '] ++ value)) = value.dropWhile ends_name := by
  rw [entry_value, List.dropWhile_append_of_pos h.goes_on]
  rfl

theorem EntryName.exists_cons (h : EntryName name) :
    ∃ c rest, name = c :: rest ∧ Plain c ∧ is_blank c = false := by
  obtain ⟨c, rest, rfl⟩ := List.exists_cons_of_ne_nil h.named
  obtain ⟨hplain, htab⟩ := h.start c rfl
  have hspace := (h.text c List.mem_cons_self).2.2
  refine ⟨c, rest, rfl, hplain, ?_⟩
  rw [is_blank, decide_eq_false hspace, decide_eq_false htab]
  rfl

theorem EntryName.unindented (h : EntryName name) :
    (name ++ ([' ', '=', ' '] ++ value)).dropWhile is_blank =
      name ++ ([' ', '=', ' '] ++ value) := by
  obtain ⟨c, rest, rfl, -, hblank⟩ := h.exists_cons
  exact List.dropWhile_cons_of_neg (Bool.eq_false_iff.mp hblank)

theorem EntryName.name_part_eq (h : EntryName name) :
    name_part (name ++ ([' ', '=', ' '] ++ value)) = name := by
  have hname := h.entry_name_eq value
  obtain ⟨c, rest, rfl, hplain, -⟩ := h.exists_cons
  exact (name_part_entry hplain).trans hname

/-- The entry of such a line, if the value holds more than blanks and equal signs. -/
theorem EntryName.effect_eq (h : EntryName name) :
    effect (name ++ ([' ', '=', ' '] ++ value)) =
      if value.dropWhile ends_name = [] then .nothing
      else .entry_line (new_entry (name.map lead) (value.dropWhile ends_name)) := by
  have hname := h.entry_name_eq value
  have hvalue := h.entry_value_eq value
  obtain ⟨c, rest, rfl, hplain, -⟩ := h.exists_cons
  rw [List.cons_append] at hname hvalue ⊢
  rw [effect_entry hplain, hname, hvalue]

end

/-! ## Values -/

/-- What fits is kept as it is. -/
theorem wcstombs_eq {n : Nat} {w : List Char} (h : (encode w).length ≤ n) :
    wcstombs n w = encode w := by
  induction w generalizing n with
  | nil => rfl
  | cons c w ih =>
    rw [encode_cons, List.length_append] at h
    rw [wcstombs, wctomb, if_pos (Nat.le_of_add_right_le h), ih (by omega), encode_cons]

theorem wcstombs_begins (n : Nat) (w : List Char) : wcstombs n w <+: encode w := by
  induction w generalizing n with
  | nil => exact List.nil_prefix
  | cons c w ih =>
    rw [wcstombs, encode_cons]
    by_cases hfits : (wctomb c).length ≤ n
    · rw [if_pos hfits]
      exact (List.prefix_append_right_inj _).mpr (ih _)
    · rw [if_neg hfits]
      exact List.nil_prefix

theorem new_entry_data {name : List UInt8} {w : List Char} (h : (encode w).length < 512) :
    (new_entry name w).data = encode w := by
  have hlen := length_le_encode w
  change (wcstombs 512 (w.take 511)).take 511 = encode w
  have htake : w.take 511 = w := List.take_of_length_le (by omega)
  rw [htake, wcstombs_eq (Nat.le_of_lt h), List.take_of_length_le (by omega)]

theorem new_entry_begins (name : List UInt8) (w : List Char) :
    (new_entry name w).data <+: encode w :=
  ((List.take_prefix _ _).trans (wcstombs_begins _ _)).trans
    (encode_prefix_iff.mpr (List.take_prefix _ _))

/-! ## The byte order mark -/

/-- The three bytes are those of one character. -/
theorem detect_bom_iff (text : List Char) :
    ini_detect_bom (encode text) = true ↔ text.head? = some '\uFEFF' := by
  have hbom : encode ['\uFEFF'] = [0xEF, 0xBB, 0xBF] := by decide
  have hprefix : (encode text).take 3 = encode ['\uFEFF'] ↔ encode ['\uFEFF'] <+: encode text := by
    rw [List.prefix_iff_eq_take, eq_comm]
    rfl
  rw [ini_detect_bom, decide_eq_true_iff, ← hbom, hprefix, encode_prefix_iff]
  cases text with
  | nil => decide
  | cons c text =>
    rw [List.head?_cons, Option.some_inj, List.cons_prefix_cons, eq_comm]
    exact and_iff_left List.nil_prefix

/-! ## A list that only grows -/

/-- Sections in front of the current one stay as they are, and it only gets entries behind its
own. -/
def Grows (r r' : Reading) : Prop :=
  ∃ more later, r'.list = r.head ++ { r.sec with entries := r.sec.entries ++ more } :: later

def Reading.add_entries (r : Reading) (entries : List Entry_t) : Reading where
  head := r.head
  sec := { r.sec with entries := r.sec.entries ++ entries }

theorem grows_refl (r : Reading) : Grows r r := ⟨[], [], by rw [List.append_nil]; rfl⟩

theorem Grows.of_entries {r r' : Reading} {entries : List Entry_t}
    (h : Grows (r.add_entries entries) r') : Grows r r' := by
  obtain ⟨more, later, hlist⟩ := h
  refine ⟨entries ++ more, later, hlist.trans ?_⟩
  rw [Reading.add_entries, List.append_assoc]

theorem Grows.of_section {r r' : Reading} {name : List UInt8}
    (h : Grows (r.open_section name) r') : Grows r r' := by
  obtain ⟨more, later, hlist⟩ := h
  refine ⟨[], ⟨name, more⟩ :: later, hlist.trans ?_⟩
  rw [List.append_nil]
  exact List.append_assoc _ _ _

theorem grows_fold (lines : List (List Char)) (r : Reading) :
    Grows r (lines.foldl (fun r line => r.take (effect line)) r) := by
  induction lines generalizing r with
  | nil => exact grows_refl r
  | cons line lines ih =>
    have hnext := ih (r.take (effect line))
    rw [List.foldl_cons]
    cases heffect : effect line with
    | nothing =>
      rw [heffect] at hnext
      exact hnext
    | section_line name =>
      rw [heffect] at hnext
      exact Grows.of_section hnext
    | entry_line ne =>
      rw [heffect] at hnext
      exact @Grows.of_entries r _ [ne] hnext

theorem grows_result (file : List Char) (r : Reading) : Grows r (result file r) :=
  grows_fold (lines_of file) r

end blumach.ini
