-- Fixed-point numbers in two words, the whole part in the upper one and the fraction in the
-- lower one: how they are added a word at a time, with the carry of the fractions.
import Mathlib.Data.Nat.Basic
import Mathlib.Algebra.Group.Nat.Defs

namespace fixed_point

variable {m n : Nat}

/-- Whether the fractions carry, as a program sees it from the wrapped sum. -/
def carry (f g : BitVec n) : BitVec m := if g + f < g then 1 else 0

theorem toNat_pair (a : BitVec m) (f : BitVec n) :
    (a ++ f).toNat = a.toNat * 2 ^ n + f.toNat := by
  rw [BitVec.toNat_append, Nat.shiftLeft_eq, Nat.mul_comm]
  exact (Nat.two_pow_add_eq_or_of_lt f.isLt a.toNat).symm

/-- The wrapped sum of two fractions is below one of them just when the sum does not fit. -/
theorem wraps_iff (f g : BitVec n) : g + f < g ↔ 2 ^ n ≤ g.toNat + f.toNat := by
  rw [BitVec.lt_def, BitVec.toNat_add]
  have hf := f.isLt
  have hg := g.isLt
  by_cases h : g.toNat + f.toNat < 2 ^ n
  · rw [Nat.mod_eq_of_lt h]
    omega
  · rw [Nat.mod_eq_sub_mod (by omega), Nat.mod_eq_of_lt (by omega)]
    omega

/-- The sum of two numbers, a word at a time. -/
theorem add_pair (a b : BitVec m) (f g : BitVec n) :
    (a ++ f) + (b ++ g) = (a + carry f g + b) ++ (f + g) := by
  have hf := f.isLt
  have hg := g.isLt
  apply BitVec.eq_of_toNat_eq
  rw [BitVec.toNat_add, toNat_pair, toNat_pair, toNat_pair, BitVec.toNat_add, BitVec.toNat_add,
    BitVec.toNat_add, Nat.pow_add]
  have hsplit : ∀ c r : Nat, r < 2 ^ n →
      ((a.toNat + c + b.toNat) * 2 ^ n + r) % (2 ^ m * 2 ^ n) =
        (a.toNat + c + b.toNat) % 2 ^ m * 2 ^ n + r := by
    intro c r hr
    rw [Nat.mul_comm (2 ^ m), Nat.mod_mul, Nat.mul_comm _ (2 ^ n), Nat.mul_add_mod,
      Nat.mod_eq_of_lt hr, Nat.mul_add_div (Nat.two_pow_pos n), Nat.div_eq_of_lt hr, Nat.add_zero,
      Nat.add_comm, Nat.mul_comm]
  by_cases h : 2 ^ n ≤ g.toNat + f.toNat
  · have hc : (carry f g : BitVec m) = 1 := if_pos ((wraps_iff f g).mpr h)
    have hsum : a.toNat * 2 ^ n + f.toNat + (b.toNat * 2 ^ n + g.toNat) =
        (a.toNat + 1 + b.toNat) * 2 ^ n + (f.toNat + g.toNat - 2 ^ n) := by
      rw [Nat.add_mul, Nat.add_mul, Nat.one_mul]
      omega
    rw [hsum, hsplit 1 _ (by omega), hc, Nat.mod_eq_sub_mod (a := f.toNat + g.toNat) (by omega),
      Nat.mod_eq_of_lt (a := f.toNat + g.toNat - 2 ^ n) (by omega)]
    simp [Nat.add_mod]
  · have hc : (carry f g : BitVec m) = 0 := if_neg (fun hw => h ((wraps_iff f g).mp hw))
    have hsum : a.toNat * 2 ^ n + f.toNat + (b.toNat * 2 ^ n + g.toNat) =
        (a.toNat + 0 + b.toNat) * 2 ^ n + (f.toNat + g.toNat) := by
      rw [Nat.add_mul, Nat.add_mul]
      omega
    rw [hsum, hsplit 0 _ (by omega), hc, Nat.mod_eq_of_lt (a := f.toNat + g.toNat) (by omega)]
    simp [Nat.add_mod]

/-- The sign of the whole part is the sign of the number. -/
theorem extend_pair {k : Nat} (a : BitVec m) (f : BitVec n) (hm : 0 < m) (hk : m ≤ k) :
    (a ++ f).signExtend (k + n) = a.signExtend k ++ f := by
  have h1 : (a ++ f).toInt = 2 ^ n * a.toInt + f.toNat := by
    rw [BitVec.toInt_append, if_neg (by simp; omega)]
  have h2 : (a.signExtend k ++ f).toInt = 2 ^ n * (a.signExtend k).toInt + f.toNat := by
    rw [BitVec.toInt_append, if_neg (by simp; omega)]
  apply BitVec.eq_of_toInt_eq
  rw [BitVec.toInt_signExtend_of_le (by omega), h1, h2, BitVec.toInt_signExtend_of_le hk]

end fixed_point
