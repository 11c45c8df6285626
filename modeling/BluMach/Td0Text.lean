-- The text of a TeleDisk image: characters and copies that are coded with the tree are decoded to
-- their text, in pieces of any lengths, and no bytes at all lead the decoder out of its arrays.
import BluMach.Td0Distances

namespace blumach.td0

open buffers sibling_tree

variable {s : td0dsk_t} {t : Nodes} {hist : Nat → BitVec 8} {rest : List Bool}
  {out : List (BitVec 8)}

/-! ## What a text is coded as -/

/-- A character, or so many characters from a distance behind. -/
inductive Token where
  | char (c : BitVec 8)
  | copy (pos len : Nat)
deriving DecidableEq

namespace Token

/-- The copies that have codes. -/
def Fits : Token → Prop
  | char _ => True
  | copy pos len => pos < N ∧ THRESHOLD < len ∧ len ≤ F

def symbol : Token → Nat
  | char c => c.toNat
  | copy _ len => len - THRESHOLD + 255

/-- What is behind the code of the symbol. -/
def extra : Token → List Bool
  | char _ => []
  | copy pos _ => positionCode pos

theorem symbol_lt {a : Token} (h : a.Fits) : a.symbol < N_CHAR := by
  have hn : N_CHAR = 314 := rfl
  cases a with
  | char c =>
    have hc := c.isLt
    simp only [symbol]
    omega
  | copy pos len =>
    obtain ⟨-, -, hlen⟩ := h
    have hF : F = 60 := rfl
    have hthreshold : THRESHOLD = 2 := rfl
    simp only [symbol]
    omega

end Token

/-- Each code is one of the tree that the symbols before it have made. -/
inductive Coded : Nodes → List Token → List Bool → Prop
  | nil (t : Nodes) : Coded t [] []
  | cons {t t' : Nodes} {a : Token} {as : List Token} {bs bits : List Bool} (hfits : a.Fits)
      (hcode : Code t a.symbol bs) (hupdate : state_update t a.symbol = some t')
      (hcoded : Coded t' as bits) : Coded t (a :: as) (bs ++ (a.extra ++ bits))

/-- All that fits has a code. -/
theorem coded_exists (ht : Ready t) (as : List Token) (hfits : ∀ a ∈ as, a.Fits) :
    ∃ bits, Coded t as bits := by
  induction as generalizing t with
  | nil => exact ⟨[], .nil t⟩
  | cons a as ih =>
    have ha := hfits a (List.mem_cons_self ..)
    obtain ⟨bs, hcode, -⟩ := code_exists_unique ht (Token.symbol_lt ha)
    obtain ⟨t', hupdate, ht', -⟩ := state_update_spec ht (Token.symbol_lt ha)
    obtain ⟨bits, hbits⟩ := ih ht' fun a ha => hfits a (List.mem_cons_of_mem _ ha)
    exact ⟨_, .cons ha hcode hupdate hbits⟩

/-! ## What it stands for -/

/-- The characters behind the next one, after one more. -/
def push (hist : Nat → BitVec 8) (c : BitVec 8) : Nat → BitVec 8
  | 0 => c
  | d + 1 => hist d

/-- The characters of a copy: each one may be behind others of the same copy. -/
def copied (hist : Nat → BitVec 8) (pos : Nat) : Nat → List (BitVec 8)
  | 0 => []
  | n + 1 => hist pos :: copied (push hist (hist pos)) pos n

/-- The text of characters and copies behind other characters. -/
def text : (Nat → BitVec 8) → List Token → List (BitVec 8)
  | _, [] => []
  | hist, .char c :: as => c :: text (push hist c) as
  | hist, .copy pos len :: as =>
    copied hist pos len ++ text ((copied hist pos len).foldl push hist) as

theorem length_copied (hist : Nat → BitVec 8) (pos n : Nat) : (copied hist pos n).length = n := by
  induction n generalizing hist with
  | zero => rfl
  | succ n ih => rw [copied, List.length_cons, ih]

/-! ## The window -/

/-- The last characters of the text stand in the window. -/
structure Window (s : td0dsk_t) (hist : Nat → BitVec 8) : Prop where
  inside : s.r < N
  shows : ∀ d < N, s.text_buf ((s.r + (N - 1) - d) % N) = hist d

theorem and_window (n : Nat) : n &&& (N - 1) = n % N := Nat.and_two_pow_sub_one_eq_mod n 12

theorem Window.put (h : Window s hist) (c : BitVec 8) : Window (putChar s c) (push hist c) := by
  obtain ⟨hinside, hshows⟩ := h
  have hN : N = 4096 := rfl
  rw [hN] at hinside hshows
  refine ⟨?_, fun d hd => ?_⟩
  · simp only [putChar, and_window]
    exact Nat.mod_lt _ (by decide)
  · simp only [putChar, and_window]
    rw [hN] at hd ⊢
    cases d with
    | zero =>
      rw [show ((s.r + 1) % 4096 + (4096 - 1) - 0) % 4096 = s.r by omega, Function.update_self]
      rfl
    | succ d =>
      rw [Function.update_of_ne (by omega), push, ← hshows d (by omega)]
      congr 1
      omega

/-- A copy that has come to some place: so many characters are left of it. -/
structure Copying (s : td0dsk_t) (pos n : Nat) : Prop where
  within : pos < N
  before : s.bufndx ≤ s.bufcnt
  left : n = s.bufcnt - s.bufndx
  source : (s.bufpos + s.bufndx) % N = (s.r + (N - 1) - pos) % N

/-- One step of a copy. -/
def copyChar (s : td0dsk_t) : td0dsk_t :=
  putChar { s with bufndx := s.bufndx + 1 } (s.text_buf ((s.bufpos + s.bufndx) &&& (N - 1)))

theorem copyChar_spec {pos n : Nat} (hw : Window s hist) (hcopy : Copying s pos (n + 1)) :
    s.text_buf ((s.bufpos + s.bufndx) &&& (N - 1)) = hist pos ∧
      Window (copyChar s) (push hist (hist pos)) ∧ Copying (copyChar s) pos n := by
  obtain ⟨hwithin, hbefore, hleft, hsource⟩ := hcopy
  have hc : s.text_buf ((s.bufpos + s.bufndx) &&& (N - 1)) = hist pos := by
    rw [and_window, hsource]
    exact hw.shows pos hwithin
  have hw' : Window { s with bufndx := s.bufndx + 1 } hist := ⟨hw.inside, hw.shows⟩
  refine ⟨hc, ?_, ⟨hwithin, ?_, ?_, ?_⟩⟩
  · unfold copyChar
    rw [hc]
    exact hw'.put _
  · simp only [copyChar, putChar]
    omega
  · simp only [copyChar, putChar]
    omega
  · have hinside := hw.inside
    have hN : N = 4096 := rfl
    simp only [copyChar, putChar, and_window]
    rw [hN] at hinside hwithin hsource ⊢
    omega

/-- Some characters of a copy have gone out, and the others are left. -/
structure Sent (s s' : td0dsk_t) (hist : Nat → BitVec 8) (pos n : Nat) (cs : List (BitVec 8)) :
    Prop where
  window : Window s' (cs.foldl push hist)
  copying : Copying s' pos (n - cs.length)
  split : copied hist pos n = cs ++ copied (cs.foldl push hist) pos (n - cs.length)
  input : s'.input = s.input
  tree : s'.tree = s.tree

/-- The characters of a copy go out while there is room. -/
theorem copyChars_spec {pos n : Nat} (room : Nat) (hw : Window s hist) (hcopy : Copying s pos n) :
    ∃ s' cs, copyChars s room = (s', cs) ∧ Sent s s' hist pos n cs ∧ cs.length = min room n := by
  induction room generalizing s hist n with
  | zero => exact ⟨s, [], rfl, ⟨hw, hcopy, rfl, rfl, rfl⟩, by simp⟩
  | succ room ih =>
    have hleft := hcopy.left
    cases n with
    | zero =>
      refine ⟨s, [], ?_, ⟨hw, hcopy, rfl, rfl, rfl⟩, by simp⟩
      simp only [copyChars]
      exact if_neg (by omega)
    | succ n =>
      obtain ⟨hc, hw', hcopy'⟩ := copyChar_spec hw hcopy
      obtain ⟨s', cs, hrun, hsent, hlength⟩ := ih hw' hcopy'
      have hn : n + 1 - (hist pos :: cs).length = n - cs.length := by
        rw [List.length_cons, Nat.add_sub_add_right]
      refine ⟨s', hist pos :: cs, ?_, ⟨hsent.window, ?_, ?_, hsent.input, hsent.tree⟩, ?_⟩
      · unfold copyChar at hrun
        simp only [copyChars]
        rw [if_pos (by omega), hrun, hc]
      · rw [hn]
        exact hsent.copying
      · rw [hn, copied, hsent.split]
        rfl
      · rw [List.length_cons]
        omega

/-! ## The loop -/

/-- The decoder is in front of a text: the rest of a copy, and what the next bits stand for. -/
structure Stands (s : td0dsk_t) (hist : Nat → BitVec 8) (pos n : Nat) (as : List Token)
    (bits rest : List Bool) : Prop where
  ready : Ready s.tree
  inv : Inv s.input
  behind : stream s.input = bits ++ rest
  spare : 16 ≤ rest.length
  coded : Coded s.tree as bits
  window : Window s hist
  copying : s.bufcnt ≠ 0 → Copying s pos n ∧ 0 < n
  finished : s.bufcnt = 0 → n = 0

/-- The text that the decoder is in front of. -/
def Delivers (s : td0dsk_t) (rest : List Bool) (out : List (BitVec 8)) : Prop :=
  ∃ hist pos n as bits, Stands s hist pos n as bits rest ∧
    out = copied hist pos n ++ text ((copied hist pos n).foldl push hist) as

theorem decode_char {pos : Nat} {c : BitVec 8} {as : List Token} {bits : List Bool}
    (h : Stands s hist pos 0 (.char c :: as) bits rest) (hcnt : s.bufcnt = 0) :
    ∃ input tree bits', state_DecodeChar s.tree s.input = some (input, some (tree, c.toNat)) ∧
      Stands (putChar { s with input, tree } c) (push hist c) pos 0 as bits' rest := by
  have hbehind := h.behind
  cases h.coded with
  | @cons _ t' _ _ bs bits' hfits hcode hupdate hcoded =>
    rw [List.append_assoc] at hbehind
    obtain ⟨input, t'', hrun, hupdate', hinv, hs⟩ := state_DecodeChar_code h.ready
      (Token.symbol_lt hfits) hcode h.inv hbehind (by
        have hspare := h.spare
        simp only [List.length_append]
        omega)
    obtain rfl := Option.some.inj (hupdate'.symm.trans hupdate)
    obtain ⟨t₃, hupdate'', hready, -⟩ := state_update_spec h.ready (Token.symbol_lt hfits)
    obtain rfl := Option.some.inj (hupdate''.symm.trans hupdate)
    have hw : Window { s with input, tree := t₃ } hist := ⟨h.window.inside, h.window.shows⟩
    refine ⟨input, t₃, bits', hrun, hready, hinv, hs, h.spare, hcoded, hw.put c,
      fun hne => absurd hcnt hne, fun _ => rfl⟩

theorem decode_copy {pos pos' len : Nat} {as : List Token} {bits : List Bool}
    (h : Stands s hist pos 0 (.copy pos' len :: as) bits rest) :
    ∃ input tree input' bits',
      state_DecodeChar s.tree s.input = some (input, some (tree, len - THRESHOLD + 255)) ∧
      ¬len - THRESHOLD + 255 < 256 ∧ state_DecodePosition input = some (input', some pos') ∧
      Stands { s with
        input := input'
        tree
        bufpos := (((s.r : Int) - pos' - 1) % N).toNat
        bufcnt := len - THRESHOLD + 255 - 255 + THRESHOLD
        bufndx := 0 } hist pos' len as bits' rest := by
  have hbehind := h.behind
  cases h.coded with
  | @cons _ t' _ _ bs bits' hfits hcode hupdate hcoded =>
    have hspare := h.spare
    rw [List.append_assoc] at hbehind
    obtain ⟨input, t'', hrun, hupdate', hinv, hs⟩ := state_DecodeChar_code h.ready
      (Token.symbol_lt hfits) hcode h.inv hbehind (by simp only [List.length_append]; omega)
    obtain rfl := Option.some.inj (hupdate'.symm.trans hupdate)
    obtain ⟨t₃, hupdate'', hready, -⟩ := state_update_spec h.ready (Token.symbol_lt hfits)
    obtain rfl := Option.some.inj (hupdate''.symm.trans hupdate)
    obtain ⟨hpos, hlow, hhigh⟩ := hfits
    rw [List.append_assoc] at hs
    obtain ⟨input', hposition, hinv', hs'⟩ := state_DecodePosition_spec hpos hinv hs
      (by simp only [List.length_append]; omega)
    have hthreshold : THRESHOLD = 2 := rfl
    refine ⟨input, t₃, input', bits', hrun, by omega, hposition, hready, hinv', hs', hspare, hcoded,
      ⟨h.window.inside, h.window.shows⟩, fun _ => ⟨⟨hpos, ?_, ?_, ?_⟩, ?_⟩, fun hzero => ?_⟩
    · exact Nat.zero_le _
    · simp only
      omega
    · have hN : N = 4096 := rfl
      have hinside := h.window.inside
      simp only
      rw [hN] at hinside hpos ⊢
      omega
    · omega
    · simp only at hzero
      omega

/-- A copy goes on, as far as there is room. -/
theorem copy_goes_on (room : Nat) {pos n : Nat} {as : List Token} {bits : List Bool}
    (h : Stands s hist pos n as bits rest) (hcnt : s.bufcnt ≠ 0) :
    ∃ s' cs, copyChars s room = (s', cs) ∧ cs.length = min room n ∧
      copied hist pos n = cs ++ copied (cs.foldl push hist) pos (n - cs.length) ∧
      Stands (endCopy s') (cs.foldl push hist) pos (n - cs.length) as bits rest := by
  obtain ⟨hcopying, hmore⟩ := h.copying hcnt
  obtain ⟨s', cs, hrun, ⟨hwindow, hcopying', hsplit, hinput, htree⟩, hlength⟩ :=
    copyChars_spec room h.window hcopying
  refine ⟨s', cs, hrun, hlength, hsplit, ?_⟩
  have hleft := hcopying'.left
  unfold endCopy
  split
  · refine ⟨htree ▸ h.ready, hinput ▸ h.inv, hinput ▸ h.behind, h.spare, htree ▸ h.coded,
      ⟨hwindow.inside, hwindow.shows⟩, fun hne => absurd rfl hne, fun _ => by omega⟩
  · refine ⟨htree ▸ h.ready, hinput ▸ h.inv, hinput ▸ h.behind, h.spare, htree ▸ h.coded,
      hwindow, fun _ => ⟨hcopying', by omega⟩, fun hzero => by omega⟩

/-- The loop gives as much of the text as there is room for, and is in front of the rest then. -/
theorem decodeLoop_spec (fuel room : Nat) (h : Delivers s rest out) (hroom : room ≤ out.length)
    (hfuel : 2 * room + (if s.bufcnt = 0 then 1 else 0) ≤ fuel) (hpos : 0 < fuel) :
    ∃ s', decodeLoop fuel room s = some (s', out.take room) ∧ Delivers s' rest (out.drop room) := by
  induction fuel generalizing room s out with
  | zero => omega
  | succ fuel ih =>
    simp only [decodeLoop]
    by_cases hzero : room = 0
    · subst hzero
      exact ⟨s, by simp, h⟩
    rw [if_neg hzero]
    obtain ⟨hist, pos, n, as, bits, hstands, rfl⟩ := h
    by_cases hcnt : s.bufcnt = 0
    · rw [if_pos hcnt] at hfuel ⊢
      obtain rfl := hstands.finished hcnt
      cases as with
      | nil =>
        simp only [copied, text, List.append_nil, List.length_nil] at hroom
        omega
      | cons a as =>
        cases a with
        | char c =>
          obtain ⟨input, tree, bits', hrun, hstands'⟩ := decode_char hstands hcnt
          have hrest : Delivers _ rest (text (push hist c) as) := ⟨_, _, 0, _, _, hstands', rfl⟩
          obtain ⟨s', hloop, hdelivers⟩ := ih (room - 1) hrest (by
              simp only [copied, text, List.nil_append, List.foldl_nil, List.length_cons] at hroom
              omega) (by split <;> omega) (by omega)
          obtain ⟨room, rfl⟩ : ∃ n, room = n + 1 := ⟨room - 1, by omega⟩
          refine ⟨s', ?_, hdelivers⟩
          simp only [hrun, if_pos c.isLt, BitVec.ofNat_toNat, BitVec.setWidth_eq]
          rw [hloop]
          rfl
        | copy pos' len =>
          obtain ⟨input, tree, input', bits', hrun, hlarge, hposition, hstands'⟩ :=
            decode_copy hstands
          have hthreshold : THRESHOLD = 2 := rfl
          have hne : len - THRESHOLD + 255 - 255 + THRESHOLD ≠ 0 := by omega
          obtain ⟨s', hloop, hdelivers⟩ := ih room ⟨_, _, _, _, _, hstands', rfl⟩ hroom (by
            rw [if_neg hne]
            omega) (by omega)
          refine ⟨s', ?_, hdelivers⟩
          simp only [hrun, if_neg hlarge, hposition]
          rw [hloop]
          rfl
    · rw [if_neg hcnt] at hfuel ⊢
      obtain ⟨s', cs, hrun, hlength, hsplit, hstands'⟩ := copy_goes_on room hstands hcnt
      have hmore := (hstands.copying hcnt).2
      have hfold : (copied hist pos n).foldl push hist =
          (copied (cs.foldl push hist) pos (n - cs.length)).foldl push (cs.foldl push hist) := by
        rw [← List.foldl_append, ← hsplit]
      rw [hfold, hsplit, List.append_assoc] at hroom ⊢
      rw [List.length_append] at hroom
      obtain ⟨s'', hloop, hdelivers⟩ := ih (room - cs.length) ⟨_, _, _, _, _, hstands', rfl⟩
        (by omega) (by split <;> omega) (by omega)
      have hfit : cs.length ≤ room := by omega
      generalize copied (cs.foldl push hist) pos (n - cs.length) ++ _ = ds at *
      refine ⟨s'', ?_, ?_⟩
      · simp only [hrun, hloop, Option.map_some]
        rw [List.take_append, List.take_of_length_le hfit]
      · rwa [List.drop_append, List.drop_of_length_le hfit]

/-! ## Pieces -/

/-- The decoder at the start of a compressed image, a file that is not shorter than its header. -/
def td0_start (s : td0dsk_t) (file : List (BitVec 8)) : td0dsk_t :=
  let s := state_init_Decode { s with input := { s.input with fdd_file := file } }
  { s with input := { s.input with fdd_file_offset := 12 } }

theorem start_inside (s : td0dsk_t) (file : List (BitVec 8)) : Inside (td0_start s file).input :=
  ⟨Nat.zero_le _, fun _ => Nat.le_refl _⟩

/-- Pieces of a text, one after the other. -/
def decodePieces : td0dsk_t → List Nat → Option (td0dsk_t × List (BitVec 8))
  | s, [] => some (s, [])
  | s, len :: lens =>
    match state_Decode s len with
    | none => none
    | some (s, cs) => (decodePieces s lens).map fun (s, ds) => (s, cs ++ ds)

/-- What is behind the first character: the window as it is at the start. -/
def startHist (s : td0dsk_t) (d : Nat) : BitVec 8 :=
  if d < N - F then 0x20#8 else s.text_buf (N - 1 - (d - (N - F)))

theorem decodePieces_spec (lens : List Nat) (h : Delivers s rest out)
    (hlens : lens.sum ≤ out.length) : ∃ s', decodePieces s lens = some (s', out.take lens.sum) ∧
      Delivers s' rest (out.drop lens.sum) := by
  induction lens generalizing s out with
  | nil => exact ⟨s, by simp [decodePieces], by simpa using h⟩
  | cons len lens ih =>
    rw [List.sum_cons] at hlens
    obtain ⟨s₁, hrun, h₁⟩ := decodeLoop_spec (2 * len + 1) len h (by omega) (by split <;> omega)
      (by omega)
    obtain ⟨s₂, hrun', h₂⟩ := ih h₁ (by rw [List.length_drop]; omega)
    refine ⟨s₂, ?_, ?_⟩
    · simp only [decodePieces, state_Decode, hrun, hrun', Option.map_some, List.sum_cons]
      rw [List.take_add]
    · rwa [List.drop_drop] at h₂

/-- All bytes behind the header are in front of the decoder at the start. -/
theorem start_delivers {as : List Token} {code : List Bool} (s : td0dsk_t)
    (file : List (BitVec 8)) (hcoded : Coded (state_StartHuff s.tree) as code)
    (hfile : (file.drop 12).flatMap bits = code ++ rest) (hrest : 16 ≤ rest.length) :
    Delivers (td0_start s file) rest (text (startHist s) as) := by
  refine ⟨startHist s, 0, 0, as, code, ⟨(state_StartHuff_spec s.tree).1, ?_, ?_, hrest, hcoded,
    ⟨?_, fun d hd => ?_⟩, fun hne => absurd rfl hne, fun _ => rfl⟩, rfl⟩
  · exact ⟨start_inside s file, Nat.zero_le _, fun i _ => by simp [td0_start, state_init_Decode]⟩
  · exact hfile
  · exact show N - F < N by decide
  · have hN : N = 4096 := rfl
    have hF : F = 60 := rfl
    rw [hN] at hd
    simp only [td0_start, state_init_Decode, startHist, hN, hF]
    by_cases hspace : d < 4096 - 60
    · rw [if_pos (by omega), if_pos hspace]
    · rw [if_neg (by omega), if_neg hspace]
      exact congrArg s.text_buf (by omega)

/-! ## Bytes of bits -/

theorem byte_exists (bs : List Bool) (h : bs.length = 8) : ∃ x : BitVec 8, bits x = bs := by
  refine ⟨(BitVec.ofBoolListBE bs).cast h, ?_⟩
  refine List.ext_getElem (length_slice.trans h.symm) fun i hi hi' => ?_
  simp only [bits, getElem_slice, Nat.zero_add, BitVec.getMsbD_cast, BitVec.getMsbD_ofBoolListBE]
  exact List.getD_eq_getElem _ _ hi'

theorem bytes_exist (n : Nat) (bs : List Bool) (h : bs.length = 8 * n) :
    ∃ file : List (BitVec 8), file.flatMap bits = bs := by
  induction n generalizing bs with
  | zero => exact ⟨[], (List.eq_nil_of_length_eq_zero h).symm⟩
  | succ n ih =>
    obtain ⟨x, hx⟩ := byte_exists (bs.take 8) (by rw [List.length_take]; omega)
    obtain ⟨file, hfile⟩ := ih (bs.drop 8) (by rw [List.length_drop]; omega)
    refine ⟨x :: file, ?_⟩
    rw [List.flatMap_cons, hx, hfile, List.take_append_drop]

/-- There is a file with any bits behind a header, and some bits more. -/
theorem file_exists (header : List (BitVec 8)) (hheader : header.length = 12) (code : List Bool) :
    ∃ file rest, (header ++ file).drop 12 = file ∧ file.flatMap bits = code ++ rest ∧
      16 ≤ rest.length := by
  obtain ⟨file, hfile⟩ := bytes_exist (code.length + 2)
    (code ++ List.replicate (8 * (code.length + 2) - code.length) false) (by
      rw [List.length_append, List.length_replicate]
      omega)
  refine ⟨file, _, ?_, hfile, ?_⟩
  · rw [List.drop_append, List.drop_of_length_le (by omega), hheader]
    rfl
  · rw [List.length_replicate]
    omega

/-! ## Texts of any kind -/

/-- A coded text is decoded as the text, in pieces of any lengths. -/
theorem decodePieces_coded (s : td0dsk_t) (file : List (BitVec 8)) (as : List Token)
    (code rest : List Bool) (lens : List Nat) (hcoded : Coded (state_StartHuff s.tree) as code)
    (hfile : (file.drop 12).flatMap bits = code ++ rest) (hrest : 16 ≤ rest.length)
    (hlens : lens.sum ≤ (text (startHist s) as).length) :
    ∃ s', decodePieces (td0_start s file) lens =
      some (s', (text (startHist s) as).take lens.sum) := by
  obtain ⟨s', hrun, -⟩ := decodePieces_spec lens (start_delivers s file hcoded hfile hrest) hlens
  exact ⟨s', hrun⟩

theorem decodePieces_coded_three : ∃ s s' : td0dsk_t, ∃ file,
    decodePieces (td0_start s file) [1, 2] = some (s', [65, 65, 65]) := by
  obtain ⟨t, ht⟩ : ∃ t : Nodes, t = ⟨fun _ => 0, fun _ => 0, fun _ => 0⟩ := ⟨_, rfl⟩
  let s : td0dsk_t := ⟨⟨[], 0, 0, 0, fun _ => 0, 0, 0⟩, 0, 0, 0, 0, fun _ => 0, t⟩
  obtain ⟨code, hcoded⟩ := coded_exists (state_StartHuff_spec t).1 [.char 65, .copy 0 3]
    (by simp [Token.Fits, N, THRESHOLD, F])
  obtain ⟨file, rest, hdrop, hfile, hrest⟩ := file_exists (List.replicate 12 0) rfl code
  rw [← hdrop] at hfile
  obtain ⟨s', hrun⟩ := decodePieces_coded s _ _ code rest [1, 2] hcoded hfile hrest (by
    simp [text, length_copied])
  exact ⟨s, s', _, hrun⟩

/-! ## Any bytes -/

/-- The decoder has a tree, it is inside of the buffer of the file and of the window, and something
is left of a copy that is not over. -/
structure Sound (s : td0dsk_t) : Prop where
  ready : Ready s.tree
  input : Inside s.input
  window : s.r < N
  left : s.bufcnt ≠ 0 → s.bufndx < s.bufcnt

theorem Sound.put (h : Sound s) (c : BitVec 8) : Sound (putChar s c) := by
  refine ⟨h.ready, h.input, ?_, h.left⟩
  simp only [putChar, and_window]
  exact Nat.mod_lt _ (by decide)

theorem copyChars_sound (room : Nat) (hwindow : s.r < N) :
    ∃ s' cs, copyChars s room = (s', cs) ∧ cs.length = min room (s.bufcnt - s.bufndx) ∧
      s'.tree = s.tree ∧ s'.input = s.input ∧ s'.r < N := by
  induction room generalizing s with
  | zero => exact ⟨s, [], rfl, by simp, rfl, rfl, hwindow⟩
  | succ room ih =>
    simp only [copyChars]
    by_cases hmore : s.bufndx < s.bufcnt
    · rw [if_pos hmore]
      obtain ⟨s', cs, hrun, hlength, htree, hinput, hwindow'⟩ := ih (s := copyChar s) (by
        simp only [copyChar, putChar, and_window]
        exact Nat.mod_lt _ (by decide))
      simp only [copyChar, putChar] at hlength
      refine ⟨s', s.text_buf ((s.bufpos + s.bufndx) &&& (N - 1)) :: cs, ?_, ?_, htree, hinput,
        hwindow'⟩
      · unfold copyChar at hrun
        rw [hrun]
      · rw [List.length_cons, hlength]
        omega
    · rw [if_neg hmore]
      exact ⟨s, [], rfl, by simp; omega, rfl, rfl, hwindow⟩

theorem endCopy_sound (hready : Ready s.tree) (hinput : Inside s.input) (hwindow : s.r < N) :
    Sound (endCopy s) := by
  unfold endCopy
  split
  · exact ⟨hready, hinput, hwindow, fun hne => absurd rfl hne⟩
  · exact ⟨hready, hinput, hwindow, fun _ => by omega⟩

/-- The loop never leaves the arrays, and gives less than there is room for only at the end. -/
theorem decodeLoop_total (fuel room : Nat) (h : Sound s)
    (hfuel : 2 * room + (if s.bufcnt = 0 then 1 else 0) ≤ fuel) (hpos : 0 < fuel) :
    ∃ s' cs, decodeLoop fuel room s = some (s', cs) ∧ Sound s' ∧ cs.length ≤ room ∧
      (cs.length < room → AtEnd s'.input) := by
  induction fuel generalizing room s with
  | zero => omega
  | succ fuel ih =>
    simp only [decodeLoop]
    by_cases hzero : room = 0
    · rw [if_pos hzero]
      exact ⟨s, [], rfl, h, Nat.zero_le _, by simp [hzero]⟩
    rw [if_neg hzero]
    by_cases hcnt : s.bufcnt = 0
    · rw [if_pos hcnt] at hfuel ⊢
      obtain ⟨⟨i, r, hchar, hi, hend⟩, hr⟩ := state_DecodeChar_total h.ready h.input
      rw [hchar] at hr ⊢
      cases r with
      | none =>
        exact ⟨_, [], rfl, ⟨h.ready, hi, h.window, h.left⟩, Nat.zero_le _, fun _ => hend rfl⟩
      | some r =>
        obtain ⟨t', c⟩ := r
        obtain ⟨hc, -, ht'⟩ := hr i t' c rfl
        simp only
        have hnext : Sound { s with input := i, tree := t' } := ⟨ht', hi, h.window, h.left⟩
        by_cases hsmall : c < 256
        · rw [if_pos hsmall]
          obtain ⟨s', cs, hrun, hsound, hlength, hend⟩ := ih (room - 1)
            (hnext.put (BitVec.ofNat 8 c)) (by split <;> omega) (by omega)
          refine ⟨s', BitVec.ofNat 8 c :: cs, ?_, hsound, ?_, ?_⟩
          · simp only [hrun, Option.map_some]
          · rw [List.length_cons]
            omega
          · intro hless
            rw [List.length_cons] at hless
            exact hend (by omega)
        · rw [if_neg hsmall]
          obtain ⟨i', pos, hposition, hi', hend'⟩ := state_DecodePosition_total hi
          rw [hposition]
          cases pos with
          | none =>
            exact ⟨_, [], rfl, ⟨ht', hi', h.window, h.left⟩, Nat.zero_le _, fun _ => hend' rfl⟩
          | some pos =>
            have hthreshold : THRESHOLD = 2 := rfl
            exact ih room ⟨ht', hi', h.window, fun _ => by simp only; omega⟩ (by
              rw [if_neg (by simp only; omega)]
              omega) (by omega)
    · rw [if_neg hcnt] at hfuel ⊢
      have hleft := h.left hcnt
      obtain ⟨s', cs, hrun, hlength, htree, hinput, hwindow⟩ := copyChars_sound room h.window
      have hcopied : Sound (endCopy s') :=
        endCopy_sound (htree ▸ h.ready) (hinput ▸ h.input) hwindow
      obtain ⟨s'', ds, hrun', hsound, hlength', hend⟩ := ih (room - cs.length) hcopied
        (by split <;> omega) (by omega)
      refine ⟨s'', cs ++ ds, ?_, hsound, ?_, ?_⟩
      · simp only [hrun, hrun', Option.map_some]
      · rw [List.length_append]
        omega
      · intro hless
        rw [List.length_append] at hless
        exact hend (by omega)

theorem decodePieces_sound (lens : List Nat) (h : Sound s) :
    ∃ s' cs, decodePieces s lens = some (s', cs) ∧ Sound s' ∧ cs.length ≤ lens.sum := by
  induction lens generalizing s with
  | nil => exact ⟨s, [], rfl, h, Nat.zero_le _⟩
  | cons len lens ih =>
    obtain ⟨s₁, cs, hrun, h₁, hlength, -⟩ := decodeLoop_total (2 * len + 1) len h
      (by split <;> omega) (by omega)
    obtain ⟨s₂, ds, hrun', h₂, hlength'⟩ := ih h₁
    refine ⟨s₂, cs ++ ds, ?_, h₂, ?_⟩
    · simp only [decodePieces, state_Decode, hrun, hrun', Option.map_some]
    · rw [List.length_append, List.sum_cons]
      omega

/-- Whatever the bytes of the file are and whatever the pieces: every piece is read, with no access
outside of the arrays, the tree is whole after it, and it is shorter than asked for only at the end
of the file. -/
theorem state_Decode_any (s : td0dsk_t) (file : List (BitVec 8)) (lens : List Nat) (len : Nat) :
    ∃ s₁ cs s₂ ds, decodePieces (td0_start s file) lens = some (s₁, cs) ∧ cs.length ≤ lens.sum ∧
      Sound s₁ ∧ state_Decode s₁ len = some (s₂, ds) ∧ Sound s₂ ∧ ds.length ≤ len ∧
      (ds.length < len → AtEnd s₂.input) := by
  have hstart : Sound (td0_start s file) :=
    ⟨(state_StartHuff_spec s.tree).1, start_inside s file, show N - F < N by decide,
      fun hne => absurd rfl hne⟩
  obtain ⟨s₁, cs, hrun, h₁, hlength⟩ := decodePieces_sound lens hstart
  obtain ⟨s₂, ds, hrun', h₂, hlength', hend⟩ := decodeLoop_total (2 * len + 1) len h₁
    (by split <;> omega) (by omega)
  exact ⟨s₁, cs, s₂, ds, hrun, hlength, h₁, hrun', h₂, hlength', hend⟩

end blumach.td0
