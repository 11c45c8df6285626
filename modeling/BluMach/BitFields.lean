-- The fields of a word as numbers: what a mask of adjacent bits takes out of it.
import Mathlib.Data.BitVec

namespace bit_fields

variable {w : Nat}

/-- The mask has the `n` bits from `k` on. -/
def IsMask (k n : Nat) (m : BitVec w) : Prop :=
  ∀ i < w, m.getLsbD i = decide (k ≤ i ∧ i < k + n)

instance (k n : Nat) (m : BitVec w) : Decidable (IsMask k n m) := by
  unfold IsMask
  infer_instance

/-- What a mask leaves of a word. -/
theorem toNat_and_mask {k n : Nat} {m : BitVec w} (hm : IsMask k n m) (x : BitVec w) :
    (x &&& m).toNat = 2 ^ k * (x.toNat / 2 ^ k % 2 ^ n) := by
  apply Nat.eq_of_testBit_eq
  intro i
  rw [BitVec.testBit_toNat, BitVec.getLsbD_and, Nat.testBit_two_pow_mul, Nat.testBit_mod_two_pow,
    Nat.testBit_div_two_pow, BitVec.testBit_toNat]
  by_cases hi : i < w
  · rw [hm i hi]
    by_cases hk : k ≤ i
    · have hback : i - k + k = i := by omega
      have hlt : i - k < n ↔ i < k + n := by omega
      simp [hk, hback, hlt, Bool.and_comm]
    · simp [hk]
  · have hout : x.getLsbD i = false := BitVec.getLsbD_of_ge x i (by omega)
    by_cases hk : k ≤ i
    · have hback : i - k + k = i := by omega
      simp [hout, hback]
    · simp [hout, hk]

/-- The test of one bit. -/
theorem and_bit (x : BitVec w) {k : Nat} (hk : k < w) :
    x &&& BitVec.twoPow w k = 0#w ↔ x.getLsbD k = false := by
  rw [BitVec.and_twoPow]
  cases h : x.getLsbD k
  · simp
  · have hne : ¬BitVec.twoPow w k = 0#w := by
      intro hz
      have hbit := congrArg (fun y => BitVec.getLsbD y k) hz
      simp [hk] at hbit
    simp [hne]

/-- The test of one bit, as a Boolean. -/
theorem and_bit_bne (x : BitVec w) (k : Nat) :
    (x &&& BitVec.twoPow w k != 0) = x.getLsbD k := by
  by_cases hk : k < w
  · rw [Bool.eq_iff_iff, bne_iff_ne, ← Bool.not_eq_false]
    exact (and_bit x hk).not
  · rw [BitVec.and_twoPow, BitVec.getLsbD_of_ge x k (by omega)]
    rfl

end bit_fields
