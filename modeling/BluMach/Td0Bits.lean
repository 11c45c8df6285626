-- The bits of a TeleDisk image: what `state_GetBit` and `state_GetByte` give, in any order, are
-- the bits of the file one after the other, as long as two bytes are left behind them; and in any
-- file they load nothing outside of `inbuf`.
import BluMach.Buffers
import BluMach.Td0

namespace blumach.td0

open buffers

/-! ## The bits that are left -/

/-- The bits of a byte, the highest one first. -/
def bits (x : BitVec 8) : List Bool := slice x.getMsbD 0 8

/-- The bytes that are not in `getbuf` yet. -/
def pending (s : Input) : List (BitVec 8) :=
  slice s.inbuf s.ibufndx (s.ibufcnt - s.ibufndx) ++ s.fdd_file.drop s.fdd_file_offset

def held (s : Input) : List Bool := slice s.getbuf.getMsbD 0 s.getlen

def stream (s : Input) : List Bool := held s ++ (pending s).flatMap bits

/-- No bytes are left over before the first bit, so that never two of them come in at the end of
`inbuf`. -/
structure Inside (s : Input) : Prop where
  cnt : s.ibufcnt ≤ BUFSZ
  fresh : s.getlen = 0 → s.ibufcnt ≤ s.ibufndx

/-- There are no bits behind those that count. -/
structure Inv (s : Input) : Prop extends Inside s where
  len : s.getlen ≤ 16
  low : ∀ i, s.getlen ≤ i → s.getbuf.getMsbD i = false

variable {s : Input}

theorem length_stream (s : Input) : (stream s).length = s.getlen + 8 * (pending s).length := by
  have hbytes : ∀ xs : List (BitVec 8), (xs.flatMap bits).length = 8 * xs.length := by
    intro xs
    induction xs with
    | nil => rfl
    | cons x xs ih =>
      rw [List.flatMap_cons, List.length_append, ih, List.length_cons]
      simp only [bits, length_slice]
      omega
  rw [stream, List.length_append, hbytes]
  simp [held]

/-! ## Bytes come in -/

theorem takeByte_bits (x : BitVec 8) (hlen : s.getlen ≤ 8)
    (hlow : ∀ i, s.getlen ≤ i → s.getbuf.getMsbD i = false) (i : Nat) :
    (takeByte s x).getbuf.getMsbD i =
      if i < s.getlen then s.getbuf.getMsbD i else x.getMsbD (i - s.getlen) := by
  have hbyte : (x.zeroExtend 16 <<< (8 - s.getlen)).getMsbD i =
      (decide (s.getlen ≤ i) && x.getMsbD (i - s.getlen)) := by
    rw [BitVec.getMsbD_shiftLeft, BitVec.zeroExtend, BitVec.getMsbD_setWidth]
    congr 1
    · simp only [decide_eq_decide]
      omega
    · congr 1
      omega
  simp only [takeByte, BitVec.getMsbD_or, hbyte]
  by_cases hi : i < s.getlen
  · rw [if_pos hi]
    simp [Nat.not_le_of_lt hi]
  · rw [if_neg hi, hlow i (Nat.le_of_not_lt hi)]
    simp [Nat.le_of_not_lt hi]

/-- A byte of the buffer goes to the bits. -/
theorem takeByte_spec (hlen : s.getlen ≤ 8) (hlow : ∀ i, s.getlen ≤ i → s.getbuf.getMsbD i = false)
    (hndx : s.ibufndx < s.ibufcnt) :
    stream (takeByte s (s.inbuf s.ibufndx)) = stream s ∧
      ∀ i, s.getlen + 8 ≤ i → (takeByte s (s.inbuf s.ibufndx)).getbuf.getMsbD i = false := by
  have hbits := takeByte_bits (s.inbuf s.ibufndx) hlen hlow
  generalize hs' : takeByte s (s.inbuf s.ibufndx) = s' at *
  have hgetlen : s'.getlen = s.getlen + 8 := by
    rw [← hs']
    rfl
  have hheld : held s' = held s ++ bits (s.inbuf s.ibufndx) := by
    have hhas : Has s'.getbuf.getMsbD 0 (held s ++ bits (s.inbuf s.ibufndx)) := by
      refine has_append.mpr ⟨?_, ?_⟩
      · refine has_slice_iff.mpr fun j hj => ?_
        rw [hbits, if_pos (by omega)]
      · refine has_slice_iff.mpr fun j hj => ?_
        simp only [held, length_slice]
        rw [hbits, if_neg (by omega)]
        congr 1
        omega
    rw [hhas.eq_slice]
    simp [held, bits, hgetlen]
  have hpending : pending s = s.inbuf s.ibufndx :: pending s' := by
    rw [← hs']
    simp only [pending, takeByte]
    obtain ⟨n, hn⟩ := Nat.exists_eq_add_of_lt hndx
    rw [show s.ibufcnt - s.ibufndx = 1 + n by omega,
      show s.ibufcnt - (s.ibufndx + 1) = n by omega, slice_add, slice_one]
    rfl
  refine ⟨?_, fun i hi => ?_⟩
  · rw [stream, stream, hheld, hpending, List.flatMap_cons, List.append_assoc]
  · rw [hbits, if_neg (by omega)]
    exact BitVec.getMsbD_of_ge _ _ (by omega)

/-- The bits that are there after bytes came in. -/
structure Filled (s s' : Input) : Prop where
  stream : td0.stream s' = td0.stream s
  enough : 9 ≤ s'.getlen
  len : s'.getlen ≤ 16
  low : ∀ i, s'.getlen ≤ i → s'.getbuf.getMsbD i = false
  cnt : s'.ibufcnt ≤ BUFSZ

theorem fill_enough (h : 9 ≤ s.getlen) : fill s = some s := by
  rw [fill, if_neg (by omega)]

theorem fill_byte (hlen : s.getlen ≤ 8) (hndx : s.ibufndx < BUFSZ) :
    fill s = fill (takeByte s (s.inbuf s.ibufndx)) := by
  rw [fill, if_pos hlen]
  simp only [Input.load, if_pos hndx]

theorem fill_one (h : 1 ≤ s.getlen) (hlen : s.getlen ≤ 8)
    (hlow : ∀ i, s.getlen ≤ i → s.getbuf.getMsbD i = false) (hndx : s.ibufndx < s.ibufcnt)
    (hcnt : s.ibufcnt ≤ BUFSZ) : ∃ s', fill s = some s' ∧ Filled s s' := by
  obtain ⟨hstream, hlow'⟩ := takeByte_spec hlen hlow hndx
  refine ⟨takeByte s (s.inbuf s.ibufndx), ?_, hstream, ?_, ?_, hlow', hcnt⟩
  · rw [fill_byte hlen (by omega), fill_enough (by simp only [takeByte]; omega)]
  · simp only [takeByte]
    omega
  · simp only [takeByte]
    omega

theorem fill_two (h : s.getlen = 0) (hlow : ∀ i, s.getlen ≤ i → s.getbuf.getMsbD i = false)
    (hndx : s.ibufndx + 1 < s.ibufcnt) (hcnt : s.ibufcnt ≤ BUFSZ) :
    ∃ s', fill s = some s' ∧ Filled s s' := by
  obtain ⟨hstream, hlow'⟩ := takeByte_spec (by omega) hlow (by omega)
  obtain ⟨s', hrun, h₁, h₂, h₃, h₄, h₅⟩ := fill_one (s := takeByte s (s.inbuf s.ibufndx))
    (by simp only [takeByte]; omega) (by simp only [takeByte]; omega) hlow' hndx hcnt
  rw [fill_byte (by omega) (by omega)]
  exact ⟨s', hrun, h₁.trans hstream, h₂, h₃, h₄, h₅⟩

/-- The next block of the file. -/
theorem state_data_read_pending (hndx : s.ibufcnt ≤ s.ibufndx) (size : Nat) :
    ∃ n, (state_data_read { s with ibufndx := 0 } size).2 = n ∧
      n = min size (s.fdd_file.length - s.fdd_file_offset) ∧
      pending { (state_data_read { s with ibufndx := 0 } size).1 with ibufcnt := n } =
        pending s := by
  refine ⟨_, rfl, ?_, ?_⟩
  · simp only [state_data_read]
    split <;> omega
  · have hnone : s.ibufcnt - s.ibufndx = 0 := by omega
    simp only [state_data_read, pending, hnone, slice_zero, List.nil_append, Nat.sub_zero]
    generalize hn : (if size > s.fdd_file.length - s.fdd_file_offset then
      s.fdd_file.length - s.fdd_file_offset else size) = n
    have hle : n ≤ s.fdd_file.length - s.fdd_file_offset := by
      split at hn <;> omega
    rw [← List.drop_drop]
    conv => rhs; rw [← List.take_append_drop n (s.fdd_file.drop s.fdd_file_offset)]
    congr 1
    refine List.ext_getElem (by simp; omega) fun i hi hi' => ?_
    rw [length_slice] at hi
    rw [getElem_slice, List.getElem_take, List.getElem_drop, Nat.zero_add, if_pos hi,
      List.getD_eq_getElem?_getD, List.getElem?_eq_getElem (by omega), Option.getD_some]

/-- Bits come in as long as there are enough. -/
theorem state_next_word_spec (h : Inv s) (hmore : 17 ≤ (stream s).length) :
    ∃ s', state_next_word s = some (s', true) ∧ Filled s s' := by
  have hlength := length_stream s
  have hlen := h.len
  unfold state_next_word
  by_cases hndx : s.ibufndx ≥ s.ibufcnt
  · rw [if_pos hndx]
    obtain ⟨n, hn, hmin, hpending⟩ := state_data_read_pending hndx BUFSZ
    have hall : pending s = s.fdd_file.drop s.fdd_file_offset := by
      unfold pending
      rw [show s.ibufcnt - s.ibufndx = 0 by omega]
      rfl
    have hleft : (pending s).length = s.fdd_file.length - s.fdd_file_offset := by
      rw [hall, List.length_drop]
    have hB : BUFSZ = 512 := rfl
    have hpair : state_data_read { s with ibufndx := 0 } BUFSZ =
        ((state_data_read { s with ibufndx := 0 } BUFSZ).1, n) := by
      rw [← hn]
    rw [hpair]
    simp only
    rw [if_neg (by omega)]
    generalize hs₁ : { (state_data_read { s with ibufndx := 0 } BUFSZ).1 with ibufcnt := n } =
      s₁ at *
    have hgetlen : s₁.getlen = s.getlen := by
      rw [← hs₁]
      rfl
    have hgetbuf : s₁.getbuf = s.getbuf := by
      rw [← hs₁]
      rfl
    have hzero : s₁.ibufndx = 0 := by
      rw [← hs₁]
      rfl
    have hcnt : s₁.ibufcnt = n := by
      rw [← hs₁]
    have hsame : stream s₁ = stream s := by
      rw [stream, stream, hpending, held, held, hgetlen, hgetbuf]
    have hlow : ∀ i, s₁.getlen ≤ i → s₁.getbuf.getMsbD i = false := by
      rw [hgetlen, hgetbuf]
      exact h.low
    obtain ⟨s', hfill, hfilled⟩ : ∃ s', fill s₁ = some s' ∧ Filled s₁ s' := by
      by_cases hmany : 9 ≤ s₁.getlen
      · exact ⟨s₁, fill_enough hmany, rfl, hmany, by omega, hlow, by omega⟩
      · by_cases hnone : s₁.getlen = 0
        · exact fill_two hnone hlow (by omega) (by omega)
        · exact fill_one (by omega) (by omega) hlow (by omega) (by omega)
    rw [hfill]
    exact ⟨s', rfl, hfilled.stream.trans hsame, hfilled.enough, hfilled.len, hfilled.low,
      hfilled.cnt⟩
  · rw [if_neg hndx]
    obtain ⟨s', hfill, hfilled⟩ : ∃ s', fill s = some s' ∧ Filled s s' := by
      by_cases hmany : 9 ≤ s.getlen
      · exact ⟨s, fill_enough hmany, rfl, hmany, hlen, h.low, h.cnt⟩
      · exact fill_one (Nat.pos_of_ne_zero fun hnone => hndx (h.fresh hnone)) (by omega) h.low
          (by omega) h.cnt
    rw [hfill]
    exact ⟨s', rfl, hfilled⟩

/-! ## Bits go out -/

/-- The bits behind the first ones. -/
theorem shift_spec {s' : Input} (n : Nat) (hn : n < 9) (h : Filled s s') :
    stream s = slice s'.getbuf.getMsbD 0 n ++
      stream { s' with getbuf := s'.getbuf <<< n, getlen := s'.getlen - n } ∧
      Inv { s' with getbuf := s'.getbuf <<< n, getlen := s'.getlen - n } := by
  have henough := h.enough
  have hlen := h.len
  refine ⟨?_, ⟨h.cnt, fun hnone => by simp only at hnone; omega⟩, by simp only; omega,
    fun i hi => ?_⟩
  · rw [← h.stream, stream, stream, ← List.append_assoc]
    congr 1
    simp only [held]
    have hsplit : slice s'.getbuf.getMsbD 0 s'.getlen =
        slice s'.getbuf.getMsbD 0 n ++ slice s'.getbuf.getMsbD n (s'.getlen - n) := by
      conv => lhs; rw [show s'.getlen = n + (s'.getlen - n) by omega]
      rw [slice_add, Nat.zero_add]
    rw [hsplit]
    congr 1
    refine List.ext_getElem (by simp) fun i hi hi' => ?_
    rw [getElem_slice, getElem_slice, BitVec.getMsbD_shiftLeft]
    congr 1
    omega
  · simp only at hi ⊢
    rw [BitVec.getMsbD_shiftLeft]
    exact h.low _ (by omega)

theorem state_GetBit_spec {b : Bool} {rest : List Bool} (h : Inv s) (hs : stream s = b :: rest)
    (hrest : 16 ≤ rest.length) :
    ∃ s', state_GetBit s = some (s', some b) ∧ Inv s' ∧ stream s' = rest := by
  obtain ⟨s', hword, hfilled⟩ := state_next_word_spec h (by rw [hs]; simp; omega)
  obtain ⟨hstream, hinv⟩ := shift_spec 1 (by decide) hfilled
  rw [hs, slice_one] at hstream
  obtain ⟨hb, hrest'⟩ := List.cons.inj hstream
  refine ⟨_, ?_, hinv, hrest'.symm⟩
  unfold state_GetBit
  rw [hword, hb]
  simp only [BitVec.msb_eq_getMsbD_zero]

theorem state_GetByte_spec {x : BitVec 8} {rest : List Bool} (h : Inv s)
    (hs : stream s = bits x ++ rest) (hrest : 16 ≤ rest.length) :
    ∃ s', state_GetByte s = some (s', some x) ∧ Inv s' ∧ stream s' = rest := by
  have hbits : (bits x).length = 8 := length_slice
  obtain ⟨s', hword, hfilled⟩ := state_next_word_spec h (by
    rw [hs, List.length_append]
    omega)
  obtain ⟨hstream, hinv⟩ := shift_spec 8 (by decide) hfilled
  rw [hs] at hstream
  obtain ⟨hx, hrest'⟩ := List.append_inj hstream (by rw [hbits, length_slice])
  refine ⟨_, ?_, hinv, hrest'.symm⟩
  have hbyte : (s'.getbuf >>> 8).truncate 8 = x := by
    refine BitVec.eq_of_getMsbD_eq fun i hi => ?_
    have hget : x.getMsbD (0 + i) = s'.getbuf.getMsbD (0 + i) := by
      have hboth : ∀ j < 8, x.getMsbD (0 + j) = s'.getbuf.getMsbD (0 + j) := by
        refine has_slice_iff.mp ?_
        rw [← hx]
        exact has_slice _ _ _
      exact hboth i hi
    rw [Nat.zero_add] at hget
    rw [BitVec.truncate, BitVec.getMsbD_setWidth, BitVec.getMsbD_ushiftRight, hget]
    simp only [show 8 - 16 ≤ i from by omega, decide_true, Bool.true_and,
      show i + 16 - 8 = i + 8 by omega, show i + 8 < 16 by omega, show ¬i + 8 < 8 by omega,
      decide_false, Bool.not_false, Nat.add_sub_cancel]
  unfold state_GetByte
  rw [hword]
  simp only [hbyte]

/-! ## Any bytes -/

def AtEnd (s : Input) : Prop := s.fdd_file.length ≤ s.fdd_file_offset

/-- Two bytes come in at the front of the buffer only. -/
theorem fill_inside (hcnt : s.ibufcnt ≤ BUFSZ) (hndx : s.ibufndx < BUFSZ)
    (hfront : s.getlen = 0 → s.ibufndx + 1 < BUFSZ) :
    ∃ s', fill s = some s' ∧ s'.ibufcnt ≤ BUFSZ ∧ 9 ≤ s'.getlen := by
  by_cases hmany : 9 ≤ s.getlen
  · exact ⟨s, fill_enough hmany, hcnt, hmany⟩
  rw [fill_byte (by omega) hndx]
  by_cases hnone : s.getlen = 0
  · rw [fill_byte (by simp only [takeByte]; omega) (hfront hnone),
      fill_enough (by simp only [takeByte]; omega)]
    exact ⟨_, rfl, hcnt, by simp only [takeByte]; omega⟩
  · rw [fill_enough (by simp only [takeByte]; omega)]
    exact ⟨_, rfl, hcnt, by simp only [takeByte]; omega⟩

/-- Bits come in, with no load outside of the buffer, or the file is at its end. -/
theorem state_next_word_total (h : Inside s) :
    ∃ s' more, state_next_word s = some (s', more) ∧ Inside s' ∧
      (more = true → 9 ≤ s'.getlen) ∧ (more = false → AtEnd s') := by
  have hB : BUFSZ = 512 := rfl
  unfold state_next_word
  by_cases hndx : s.ibufndx ≥ s.ibufcnt
  · rw [if_pos hndx]
    simp only [state_data_read]
    generalize hn : (if BUFSZ > s.fdd_file.length - s.fdd_file_offset then
      s.fdd_file.length - s.fdd_file_offset else BUFSZ) = n
    have hle : n ≤ BUFSZ := by
      split at hn <;> omega
    by_cases hnone : n = 0
    · rw [if_pos hnone]
      refine ⟨_, false, rfl, ⟨hle, fun _ => by simp only; omega⟩, by simp, fun _ => ?_⟩
      simp only [AtEnd]
      split at hn <;> omega
    · rw [if_neg hnone]
      obtain ⟨s', hfill, hcnt, henough⟩ := fill_inside (s := { s with
        inbuf := fun i =>
          if i < n then s.fdd_file.getD (s.fdd_file_offset + i) 0 else s.inbuf i
        fdd_file_offset := s.fdd_file_offset + n
        ibufndx := 0
        ibufcnt := n }) hle (show 0 < 512 by decide) fun _ => show 1 < 512 by decide
      rw [hfill]
      exact ⟨s', true, rfl, ⟨hcnt, fun hzero => by omega⟩, fun _ => henough, by simp⟩
  · rw [if_neg hndx]
    have hcnt := h.cnt
    obtain ⟨s', hfill, hcnt', henough⟩ := fill_inside hcnt (by omega) fun hnone =>
      absurd (h.fresh hnone) hndx
    rw [hfill]
    exact ⟨s', true, rfl, ⟨hcnt', fun hzero => by omega⟩, fun _ => henough, by simp⟩

/-- What reads from the file stays inside of the buffer, and gives nothing only at the end. -/
def Reads {α : Type} (r : Option (Input × Option α)) : Prop :=
  ∃ s' x, r = some (s', x) ∧ Inside s' ∧ (x = none → AtEnd s')

theorem state_GetBit_total (h : Inside s) : Reads (state_GetBit s) := by
  obtain ⟨s', more, hword, hinside, hlen, hend⟩ := state_next_word_total h
  unfold state_GetBit
  rw [hword]
  cases more with
  | false => exact ⟨s', none, rfl, hinside, fun _ => hend rfl⟩
  | true =>
    have henough := hlen rfl
    exact ⟨_, some _, rfl, ⟨hinside.cnt, fun hzero => by simp only at hzero; omega⟩, by simp⟩

theorem state_GetByte_total (h : Inside s) : Reads (state_GetByte s) := by
  obtain ⟨s', more, hword, hinside, hlen, hend⟩ := state_next_word_total h
  unfold state_GetByte
  rw [hword]
  cases more with
  | false => exact ⟨s', none, rfl, hinside, fun _ => hend rfl⟩
  | true =>
    have henough := hlen rfl
    exact ⟨_, some _, rfl, ⟨hinside.cnt, fun hzero => by simp only at hzero; omega⟩, by simp⟩

end blumach.td0
