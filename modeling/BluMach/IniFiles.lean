-- Reading any file: that `ini_read_ex` ends, that it stays inside its arrays, and that each line
-- `name = value` gives the entry of its name and its value in the current section.
import BluMach.IniLaws

namespace blumach.ini

open utf8_text line_reader

/-! ## Lines with an entry -/

/-- A line `name = value` of at most 1023 characters, with a name of at most 127 bytes. -/
structure EntryLine (line name value : List Char) : Prop where
  form : line = name ++ ([' ', '=', ' '] ++ value)
  short : line.length ≤ 1023
  is_name : EntryName name
  name_bytes : (encode name).length ≤ 127
  valued : value ≠ []
  value_text : ∀ c ∈ value, Text c

/-- A line of a file, what is in front of it and what ends it: nothing only at the end. -/
def LineOf (file pre line brk : List Char) : Prop :=
  ∃ rest, file = pre ++ (line ++ (brk ++ rest)) ∧ Whole '\n' pre ∧
    (Newline brk ∨ brk = [] ∧ rest = [])

/-- The entry of a name and a value. Its arrays hold 511 characters, and 511 bytes, of a value. -/
structure EntryOf (name value : List Char) (ne : Entry_t) : Prop where
  named : ne.name = encode name
  chars : ne.wdata = value.take 511
  bytes : ne.data <+: encode value
  whole : (encode value).length ≤ 511 → ne.data = encode value

/-- Reading the line adds the entry of its name and its value, and no other, to the section that is
current there, and the entry stays. -/
def Produces (file pre line brk name value : List Char) : Prop :=
  ∃ r ne last, EntryOf name value ne ∧ Reads pre r ∧
    Reads (pre ++ (line ++ brk)) (r.add_entry ne) ∧ Reads file last ∧ Grows (r.add_entry ne) last

structure SafeAndComplete (text : List Char) : Prop where
  ends : ∃ fuel, ini_read_ex fuel text ≠ .running
  within : ∀ fuel, ini_read_ex fuel text ≠ .overflow
  complete : ∀ pre line brk name value, LineOf (body text) pre line brk →
    EntryLine line name value → Produces (body text) pre line brk name value

/-! ## What such a line does -/

section

variable {file pre line brk name value : List Char}

theorem EntryLine.text (h : EntryLine line name value) : ∀ c ∈ line, Text c := by
  intro c hc
  rw [h.form, List.mem_append, List.mem_append] at hc
  rcases hc with hc | hc | hc
  · exact (h.is_name.text c hc).1
  · exact text_of_separator c hc
  · exact h.value_text c hc

/-- The entry of the line, if the reader takes it. -/
def made (name value : List Char) : Entry_t :=
  new_entry (name.map lead) (value.dropWhile ends_name)

/-- The reader makes an entry of a value that is more than blanks and equal signs, in a line that
does not end the file or that fills the array. -/
def Taken (line brk value : List Char) : Prop :=
  value.dropWhile ends_name ≠ [] ∧ (brk = [] → line.length = 1023)

/-- The name is of ASCII characters and no blank and no equal sign starts the value. -/
def Uncut (name value : List Char) : Prop :=
  Ascii (encode name) ∧ ∀ c, value.head? = some c → c ≠ '=' ∧ c ≠ ' '

theorem dropWhile_of_head {value : List Char}
    (h : ∀ c, value.head? = some c → c ≠ '=' ∧ c ≠ ' ') : value.dropWhile ends_name = value := by
  cases value with
  | nil => rfl
  | cons c value =>
    refine List.dropWhile_cons_of_neg ?_
    rw [ends_name_iff, not_or]
    exact h c rfl

/-- What the loop over blanks and equal signs leaves starts with neither. -/
theorem head_of_take {value : List Char} (h : (value.dropWhile ends_name).take 511 = value.take 511)
    (c : Char) (hc : value.head? = some c) : c ≠ '=' ∧ c ≠ ' ' := by
  obtain ⟨rest, rfl⟩ : ∃ rest, value = c :: rest := by
    cases value with
    | nil => exact nomatch hc
    | cons d rest => exact ⟨rest, by rw [Option.some.inj hc]⟩
  have hhead : ((c :: rest).dropWhile ends_name).head? = some c := by
    have htake := congrArg List.head? h
    rwa [List.head?_take, List.head?_take, if_neg (by decide), if_neg (by decide)] at htake
  have hstop := List.head?_dropWhile_not ends_name (c :: rest)
  rw [hhead] at hstop
  rwa [← not_or, ← ends_name_iff, Bool.not_eq_true]

/-- The entry that is made is that of the line where neither name nor value is cut. -/
theorem made_iff : EntryOf name value (made name value) ↔ Uncut name value := by
  constructor
  · rintro ⟨hnamed, hchars, -, -⟩
    exact ⟨(leads_eq_encode.mp hnamed).2, head_of_take hchars⟩
  · rintro ⟨hascii, hhead⟩
    rw [made, dropWhile_of_head hhead]
    exact ⟨leads_of_ascii hascii, rfl, new_entry_begins _ _,
      fun hlen => new_entry_data (Nat.lt_succ_of_le hlen)⟩

theorem EntryLine.effect_eq (h : EntryLine line name value) :
    effect (line.dropWhile is_blank) =
      if value.dropWhile ends_name = [] then .nothing else .entry_line (made name value) := by
  rw [h.form, h.is_name.unindented, h.is_name.effect_eq]
  rfl

/-- What the list is behind the line. -/
theorem EntryLine.result_eq (h : EntryLine line name value)
    (hbrk : Newline brk ∨ brk = []) (r : Reading) :
    (Taken line brk value → result (line ++ brk) r = r.add_entry (made name value)) ∧
      (¬ Taken line brk value → result (line ++ brk) r = r) := by
  have hmade (hvalue : value.dropWhile ends_name ≠ []) :
      r.take (effect (line.dropWhile is_blank)) = r.add_entry (made name value) := by
    rw [h.effect_eq, if_neg hvalue]
    rfl
  have hlost (hvalue : value.dropWhile ends_name = []) :
      r.take (effect (line.dropWhile is_blank)) = r := by
    rw [h.effect_eq, if_pos hvalue]
    rfl
  rcases hbrk with hbrk | rfl
  · have hne : brk ≠ [] := by
      rintro rfl
      exact nomatch hbrk
    have hline := @result_line [] line brk h.text h.short hbrk r
    rw [List.append_nil] at hline
    rw [hline]
    exact ⟨fun hk => hmade hk.1, fun hk => hlost (by
      by_contra hvalue
      exact hk ⟨hvalue, fun h => absurd h hne⟩)⟩
  · rw [List.append_nil, result]
    rcases Nat.lt_or_eq_of_le h.short with hlt | hfull
    · rw [lines_of_short h.text hlt]
      exact ⟨fun hk => absurd (hk.2 rfl) (Nat.ne_of_lt hlt), fun _ => rfl⟩
    · rw [lines_of_last h.text hfull]
      exact ⟨fun hk => hmade hk.1, fun hk => hlost (by
        by_contra hvalue
        exact hk ⟨hvalue, fun _ => hfull⟩)⟩

theorem add_entry_injective {r : Reading} {ne ne' : Entry_t}
    (h : r.add_entry ne = r.add_entry ne') : ne = ne' := by
  have hentries := congrArg (fun r => r.sec.entries) h
  exact List.singleton_inj.mp (List.append_cancel_left hentries)

theorem add_entry_ne (r : Reading) (ne : Entry_t) : r.add_entry ne ≠ r := by
  intro h
  have hlen := congrArg (fun r => r.sec.entries.length) h
  rw [Reading.add_entry, List.length_append] at hlen
  exact absurd hlen (Nat.succ_ne_self _)

theorem whole_of_newline (hbrk : Newline brk) (front : List Char) : Whole '\n' (front ++ brk) := by
  right
  cases hbrk with
  | newline => exact List.getLast?_concat
  | both => rw [← List.singleton_append, ← List.append_assoc, List.getLast?_concat]

/-- A file as what is read up to the end of one of its lines, and the list growing from there. -/
theorem LineOf.reads (hline : LineOf file pre line brk) (hfit : AllFit file) :
    AllFit (pre ++ (line ++ brk)) ∧
      Grows (result (pre ++ (line ++ brk)) start) (result file start) := by
  obtain ⟨rest, rfl, hpre, hbrk⟩ := hline
  have hassoc : pre ++ (line ++ (brk ++ rest)) = pre ++ (line ++ brk) ++ rest := by
    rw [List.append_assoc, List.append_assoc]
  rw [hassoc] at hfit ⊢
  rcases hbrk with hbrk | ⟨rfl, rfl⟩
  · have hwhole : Whole '\n' (pre ++ (line ++ brk)) := by
      rw [← List.append_assoc]
      exact whole_of_newline hbrk _
    rw [result_append hwhole]
    exact ⟨((allFit_append hwhole).mp hfit).1, grows_result _ _⟩
  · rw [List.append_nil] at hfit
    rw [List.append_nil (pre ++ (line ++ []))]
    exact ⟨hfit, grows_result [] _⟩

/-- An entry line of a file gives its entry just where the reader makes one and cuts nothing. -/
theorem EntryLine.produces_iff (h : EntryLine line name value) (hfit : AllFit file)
    (hline : LineOf file pre line brk) :
    Produces file pre line brk name value ↔ Taken line brk value ∧ Uncut name value := by
  obtain ⟨hpart, hgrows⟩ := hline.reads hfit
  obtain ⟨rest, -, hpre, hbrk⟩ := hline
  obtain ⟨hyes, hno⟩ := h.result_eq (hbrk.imp_right And.left) (result pre start)
  rw [← result_append hpre] at hyes hno
  constructor
  · rintro ⟨r, ne, last, hof, hr, hadd, -, -⟩
    obtain ⟨-, rfl⟩ := reads_iff.mp hr
    obtain ⟨-, hadd⟩ := reads_iff.mp hadd
    by_cases htaken : Taken line brk value
    · rw [hyes htaken] at hadd
      exact ⟨htaken, made_iff.mp (add_entry_injective hadd ▸ hof)⟩
    · rw [hno htaken] at hadd
      exact absurd hadd (add_entry_ne _ ne)
  · rintro ⟨htaken, huncut⟩
    rw [hyes htaken] at hgrows
    exact ⟨result pre start, made name value, result file start, made_iff.mpr huncut,
      reads_iff.mpr ⟨((allFit_append hpre).mp hpart).1, rfl⟩,
      reads_iff.mpr ⟨hpart, (hyes htaken).symm⟩, reads_iff.mpr ⟨hfit, rfl⟩, hgrows⟩

end

/-! ## When the reader is safe and complete -/

/-- Each name that is copied fits into its array, each entry line has a name of ASCII characters and
a value that starts neither with a blank nor with an equal sign, and the file does not end in an
entry line of less than 1023 characters. -/
structure Readable (text : List Char) : Prop where
  names : ∀ line ∈ lines_of (body text), Fits 0 (name_part line)
  uncut : ∀ pre line brk name value, LineOf (body text) pre line brk →
    EntryLine line name value → Uncut name value
  ended : ∀ pre line name value, LineOf (body text) pre line [] →
    EntryLine line name value → line.length = 1023

/-- A name that does not fit is written past its array, of a name that is not ASCII only the first
byte of each character is kept, the value of a line is read from its first character that is
neither a blank nor an equal sign, and a last line that no newline ends is read and then thrown
away: `feof` is asked before the line is parsed. -/
theorem read_any_file (text : List Char) : SafeAndComplete text ↔ Readable text := by
  constructor
  · rintro ⟨-, hwithin, hcomplete⟩
    have hfit : AllFit (body text) := never_overflows.mp hwithin
    have hread {pre line brk name value : List Char} (hline : LineOf (body text) pre line brk)
        (hentry : EntryLine line name value) : Taken line brk value ∧ Uncut name value :=
      (hentry.produces_iff hfit hline).mp (hcomplete _ _ _ _ _ hline hentry)
    exact ⟨hfit, fun pre line brk name value hline hentry => (hread hline hentry).2,
      fun pre line name value hline hentry => (hread hline hentry).1.2 rfl⟩
  · rintro ⟨hfit, huncut, hended⟩
    refine ⟨always_ends _, never_overflows.mpr hfit, ?_⟩
    intro pre line brk name value hline hentry
    have hcut := huncut _ _ _ _ _ hline hentry
    have hvalue : value.dropWhile ends_name ≠ [] := by
      rw [dropWhile_of_head hcut.2]
      exact hentry.valued
    refine (hentry.produces_iff hfit hline).mpr ⟨⟨hvalue, ?_⟩, hcut⟩
    rintro rfl
    exact hended _ _ _ _ hline hentry

theorem the_last_line_is_lost : ¬ SafeAndComplete ['a', ' ', '=', ' ', 'b'] := by
  intro h
  have hline : LineOf (body ['a', ' ', '=', ' ', 'b']) [] ['a', ' ', '=', ' ', 'b'] [] :=
    ⟨[], rfl, Or.inl rfl, Or.inr ⟨rfl, rfl⟩⟩
  have hentry : EntryLine ['a', ' ', '=', ' ', 'b'] ['a'] ['b'] :=
    { form := rfl
      short := by decide
      is_name :=
        { named := by decide
          text := List.forall_mem_singleton.mpr (by decide)
          start := by
            intro c hc
            obtain rfl := Option.some.inj hc
            exact ⟨by unfold Plain; decide, by decide⟩ }
      name_bytes := by decide
      valued := by decide
      value_text := List.forall_mem_singleton.mpr (by decide) }
  have hread := (hentry.produces_iff (by decide) hline).mp (h.complete _ _ _ _ _ hline hentry)
  exact absurd (hread.1.2 rfl) (by decide)

/-- A name of 128 characters puts its NUL behind `ename`. -/
example : ini_read_ex 2 (List.replicate 128 'x' ++ [' ', '=', ' ', 'y', '\n']) = .overflow := by
  decide +kernel

end blumach.ini
