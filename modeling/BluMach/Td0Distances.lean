-- Distances of the TeleDisk decoder: the code of each one, that it is read back, and that any bits
-- are read as a distance.
import BluMach.Decimal
import BluMach.Td0Codes

namespace blumach.td0

open buffers sibling_tree

variable {s : Input} {d : td0dsk_t} {t : Nodes}

/-! ## Distances -/

/-- The bits of a number, so many, the highest one first. -/
def natBits : Nat → Nat → List Bool
  | 0, _ => []
  | w + 1, n => n.testBit w :: natBits w n

theorem natBits_append (a b n : Nat) :
    natBits (a + b) n = natBits a (n / 2 ^ b) ++ natBits b n := by
  induction a with
  | zero => simp [natBits]
  | succ a ih =>
    rw [Nat.add_right_comm, natBits, natBits, ih, Nat.testBit_div_two_pow]
    rfl

theorem length_natBits (w n : Nat) : (natBits w n).length = w := by
  induction w with
  | zero => rfl
  | succ w ih => rw [natBits, List.length_cons, ih]

theorem bits_eq_natBits (x : BitVec 8) : bits x = natBits 8 x.toNat := by
  have hget : ∀ i < 8, x.getMsbD i = x.toNat.testBit (7 - i) := by
    intro i hi
    rw [BitVec.getMsbD_eq_getLsbD, ← BitVec.testBit_toNat]
    simp [hi]
  simp only [bits, slice, natBits, List.range, List.range.loop, List.map_cons, List.map_nil,
    Nat.zero_add]
  rw [hget 0 (by decide), hget 1 (by decide), hget 2 (by decide), hget 3 (by decide),
    hget 4 (by decide), hget 5 (by decide), hget 6 (by decide), hget 7 (by decide)]

/-- The first byte of the table for the upper bits of a distance. -/
def firstByte (v : Nat) : Nat := d_code.findIdx (· == v)

def codeLen (v : Nat) : Nat := d_len.getD (firstByte v) 0

/-- All bytes that begin with the code of some upper bits stand for these. -/
theorem table_spec : ∀ v < 64, 3 ≤ codeLen v ∧ codeLen v ≤ 8 ∧
    firstByte v % 2 ^ (8 - codeLen v) = 0 ∧ firstByte v + 2 ^ (8 - codeLen v) ≤ 256 ∧
    ∀ y < 2 ^ (8 - codeLen v), d_code.getD (firstByte v + y) 0 = v ∧
      d_len.getD (firstByte v + y) 0 = codeLen v := by
  decide +kernel

/-- The code of a distance: some bits for its upper six, and its lower six. -/
def positionCode (pos : Nat) : List Bool :=
  natBits (codeLen (pos / 64) + 6)
    (firstByte (pos / 64) / 2 ^ (8 - codeLen (pos / 64)) * 64 + pos % 64)

theorem lowerBits_spec {rest : List Bool} (j i n : Nat) (hi : (i + 1) * 2 ^ j ≤ 0x10000)
    (h : Inv s) (hs : stream s = natBits j n ++ rest) (hrest : 16 ≤ rest.length) :
    ∃ s', lowerBits j s i = some (s', some (i * 2 ^ j + n % 2 ^ j)) ∧ Inv s' ∧
      stream s' = rest := by
  induction j generalizing s i with
  | zero =>
    refine ⟨s, ?_, h, by simpa [natBits] using hs⟩
    simp [lowerBits, Nat.mod_one]
  | succ j ih =>
    rw [natBits, List.cons_append] at hs
    obtain ⟨s₁, hbit, h₁, hs₁⟩ := state_GetBit_spec h hs (by simp [length_natBits]; omega)
    have hb := (n.testBit j).toNat_le
    have hpow : 0 < 2 ^ j := Nat.two_pow_pos j
    have hdouble : (i <<< 1) + (n.testBit j).toNat = 2 * i + (n.testBit j).toNat := by
      rw [Nat.shiftLeft_eq]
      omega
    rw [Nat.pow_succ] at hi
    have hsmall : (2 * i + (n.testBit j).toNat + 1) * 2 ^ j ≤ 0x10000 := by
      refine Nat.le_trans (Nat.mul_le_mul_right _ (show _ ≤ (i + 1) * 2 by omega)) ?_
      rw [Nat.mul_assoc, Nat.mul_comm 2]
      exact hi
    have hmod : (2 * i + (n.testBit j).toNat) % 0x10000 = 2 * i + (n.testBit j).toNat := by
      refine Nat.mod_eq_of_lt ?_
      have hle := Nat.le_mul_of_pos_right (2 * i + (n.testBit j).toNat + 1) hpow
      omega
    obtain ⟨s₂, hrun, h₂, hs₂⟩ := ih (2 * i + (n.testBit j).toNat) hsmall h₁ hs₁
    refine ⟨s₂, ?_, h₂, hs₂⟩
    simp only [lowerBits, hbit, hdouble, hmod, hrun]
    rw [Nat.mod_pow_succ, ← Nat.toNat_testBit, Nat.pow_succ, Nat.add_mul]
    congr 3
    have hcomm : 2 ^ j * (n.testBit j).toNat = (n.testBit j).toNat * 2 ^ j := Nat.mul_comm _ _
    have hassoc : i * (2 ^ j * 2) = 2 * i * 2 ^ j := by
      rw [Nat.mul_comm (2 ^ j), ← Nat.mul_assoc, Nat.mul_comm i]
    omega

/-- A code of a distance is read as the distance. -/
theorem state_DecodePosition_spec {pos : Nat} {rest : List Bool} (hpos : pos < N) (h : Inv s)
    (hs : stream s = positionCode pos ++ rest) (hrest : 16 ≤ rest.length) :
    ∃ s', state_DecodePosition s = some (s', some pos) ∧ Inv s' ∧ stream s' = rest := by
  have hN : N = 4096 := rfl
  obtain ⟨hlow, hhigh, hmod, hbyte, htable⟩ := table_spec (pos / 64) (by omega)
  unfold positionCode at hs
  generalize firstByte (pos / 64) = f at *
  generalize codeLen (pos / 64) = l at *
  -- the length of the code is one of six
  obtain ⟨k, rfl⟩ := Nat.exists_eq_add_of_le hlow
  have hk : k ≤ 5 := by omega
  have hpow : 2 ^ (8 - (3 + k)) * 2 ^ (k + 1) = 64 := by
    rw [← Nat.pow_add, show 8 - (3 + k) + (k + 1) = 6 by omega]
  have hpos' : 0 < 2 ^ (k + 1) := Nat.two_pow_pos _
  generalize hA : 2 ^ (8 - (3 + k)) = A at *
  -- the byte, and the bits behind it
  have hdiv : (f / A * 64 + pos % 64) / 2 ^ (k + 1) = f + pos % 64 / 2 ^ (k + 1) := by
    have hf : f / A * 64 = f * 2 ^ (k + 1) := by
      rw [← hpow, ← Nat.mul_assoc, Nat.div_mul_cancel (Nat.dvd_of_mod_eq_zero hmod)]
    rw [hf, Nat.mul_comm f, Nat.mul_add_div hpos']
  have hy : pos % 64 / 2 ^ (k + 1) < A := by
    rw [Nat.div_lt_iff_lt_mul hpos', hpow]
    exact Nat.mod_lt _ (by decide)
  have hx : (BitVec.ofNat 8 (f + pos % 64 / 2 ^ (k + 1))).toNat =
      f + pos % 64 / 2 ^ (k + 1) := by
    rw [BitVec.toNat_ofNat]
    exact Nat.mod_eq_of_lt (by omega)
  have hsplit : natBits (3 + k + 6) (f / A * 64 + pos % 64) =
      bits (BitVec.ofNat 8 (f + pos % 64 / 2 ^ (k + 1))) ++
        natBits (k + 1) (f / A * 64 + pos % 64) := by
    rw [show 3 + k + 6 = 8 + (k + 1) by omega, natBits_append, hdiv, bits_eq_natBits, hx]
  rw [hsplit, List.append_assoc] at hs
  obtain ⟨s₁, hget, h₁, hs₁⟩ := state_GetByte_spec h hs (by simp [length_natBits]; omega)
  obtain ⟨hcode, hlen⟩ := htable _ hy
  have hroom : (f + pos % 64 / 2 ^ (k + 1) + 1) * 2 ^ (k + 1) ≤ 0x10000 := by
    refine Nat.le_trans (Nat.mul_le_mul (show _ ≤ 256 by omega)
      (Nat.pow_le_pow_right (by decide) (show k + 1 ≤ 6 by omega))) (by decide)
  obtain ⟨s₂, hlower, h₂, hs₂⟩ := lowerBits_spec (k + 1) (f + pos % 64 / 2 ^ (k + 1)) _ hroom h₁
    hs₁ hrest
  refine ⟨s₂, ?_, h₂, hs₂⟩
  unfold state_DecodePosition
  rw [hget]
  simp only [hx, hcode, hlen, show 3 + k - 2 = k + 1 by omega, hlower]
  -- the lower six bits are those that were read last
  have hall : (f + pos % 64 / 2 ^ (k + 1)) * 2 ^ (k + 1) +
      (f / A * 64 + pos % 64) % 2 ^ (k + 1) = f / A * 64 + pos % 64 := by
    rw [← hdiv, Nat.mul_comm]
    exact Nat.div_add_mod _ _
  rw [hall]
  have hlow6 : (f / A * 64 + pos % 64) &&& 0x3f = pos % 64 := by
    rw [Nat.and_two_pow_sub_one_eq_mod _ 6]
    omega
  rw [hlow6, ← Nat.shiftLeft_add_eq_or_of_lt (Nat.mod_lt _ (by decide) : pos % 64 < 2 ^ 6),
    Nat.shiftLeft_eq]
  congr 3
  omega

/-! ## Any bits -/

theorem lowerBits_total (j i : Nat) (h : Inside s) : Reads (lowerBits j s i) := by
  induction j generalizing s i with
  | zero => exact ⟨s, some i, rfl, h, by simp⟩
  | succ j ih =>
    obtain ⟨s₁, b, hbit, h₁, hend⟩ := state_GetBit_total h
    simp only [lowerBits, hbit]
    cases b with
    | none => exact ⟨s₁, none, rfl, h₁, fun _ => hend rfl⟩
    | some b => exact ih _ h₁

theorem state_DecodePosition_total (h : Inside s) : Reads (state_DecodePosition s) := by
  obtain ⟨s₁, x, hbyte, h₁, hend⟩ := state_GetByte_total h
  unfold state_DecodePosition
  rw [hbyte]
  cases x with
  | none => exact ⟨s₁, none, rfl, h₁, fun _ => hend rfl⟩
  | some x =>
    obtain ⟨s₂, i, hlower, h₂, hend'⟩ :=
      lowerBits_total (d_len.getD x.toNat 0 - 2) x.toNat h₁
    simp only [hlower]
    cases i with
    | none => exact ⟨s₂, none, rfl, h₂, fun _ => hend' rfl⟩
    | some i => exact ⟨s₂, some _, rfl, h₂, by simp⟩

end blumach.td0
