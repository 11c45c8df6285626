-- Multiplication by shifts and additions: one number holds the digits that are left at its low end
-- and the product at its high end, and each turn takes a digit off.
import Mathlib.Logic.Function.Iterate
import Mathlib.Tactic.Ring

namespace shift_add

/-- One turn. The digit that goes out decides whether the factor is added above the `n` digits. -/
def turn (n factor x : Nat) : Nat := x / 2 + x % 2 * (factor * 2 ^ n)

/-- Each digit that went out has left its part of the product. -/
theorem turns (n factor x : Nat) {k : Nat} (hk : k ≤ n + 1) :
    (turn n factor)^[k] x = x / 2 ^ k + x % 2 ^ k * (factor * 2 ^ (n + 1 - k)) := by
  induction k with
  | zero => rw [Function.iterate_zero_apply, Nat.pow_zero, Nat.div_one, Nat.mod_one]; omega
  | succ k ih =>
    have hpow : 2 ^ (n + 1 - k) = 2 * 2 ^ (n - k) := by
      rw [show n + 1 - k = n - k + 1 by omega, Nat.pow_succ, Nat.mul_comm]
    have hsplit : 2 ^ k * 2 ^ (n - k) = 2 ^ n := by
      rw [← Nat.pow_add]
      congr 1
      omega
    have hdouble : x % 2 ^ k * (factor * 2 ^ (n + 1 - k)) =
        2 * (x % 2 ^ k * (factor * 2 ^ (n - k))) := by
      rw [hpow]
      ring
    have hdigit : x / 2 ^ k / 2 = x / 2 ^ (k + 1) := by
      rw [Nat.div_div_eq_div_mul, Nat.pow_succ]
    rw [Function.iterate_succ_apply', ih (by omega), hdouble]
    unfold turn
    generalize hpart : x % 2 ^ k * (factor * 2 ^ (n - k)) = part
    rw [show (x / 2 ^ k + 2 * part) / 2 = x / 2 ^ (k + 1) + part by omega,
      show (x / 2 ^ k + 2 * part) % 2 = x / 2 ^ k % 2 by omega, Nat.mod_pow_succ,
      show n + 1 - (k + 1) = n - k by omega, ← hpart]
    calc x / 2 ^ (k + 1) + x % 2 ^ k * (factor * 2 ^ (n - k)) + x / 2 ^ k % 2 * (factor * 2 ^ n)
        = x / 2 ^ (k + 1) + x % 2 ^ k * (factor * 2 ^ (n - k)) +
            x / 2 ^ k % 2 * (factor * (2 ^ k * 2 ^ (n - k))) := by rw [hsplit]
      _ = x / 2 ^ (k + 1) +
            (x % 2 ^ k + 2 ^ k * (x / 2 ^ k % 2)) * (factor * 2 ^ (n - k)) := by ring

/-- The digit that goes out next. -/
theorem turns_digit (n factor x : Nat) {k : Nat} (hk : k ≤ n) :
    (turn n factor)^[k] x % 2 = x / 2 ^ k % 2 := by
  have hpow : 2 ^ (n + 1 - k) = 2 * 2 ^ (n - k) := by
    rw [show n + 1 - k = n - k + 1 by omega, Nat.pow_succ, Nat.mul_comm]
  have heven : x % 2 ^ k * (factor * 2 ^ (n + 1 - k)) =
      2 * (x % 2 ^ k * (factor * 2 ^ (n - k))) := by
    rw [hpow]
    ring
  rw [turns n factor x (by omega), heven, Nat.add_mul_mod_self_left]

/-- What is above the digits only moves. -/
theorem turn_add (n factor x e : Nat) : turn n factor (x + 2 * e) = turn n factor x + e := by
  unfold turn
  rw [Nat.add_mul_mod_self_left, Nat.add_mul_div_left _ _ (by decide)]
  omega

/-- After all of its digits a number has become the product, above one digit that is 0. -/
theorem turns_all {n factor x : Nat} (h : x < 2 ^ n) :
    (turn n factor)^[n] x = 2 * (x * factor) := by
  rw [turns n factor x (Nat.le_succ n), Nat.div_eq_of_lt h, Nat.mod_eq_of_lt h,
    show n + 1 - n = 1 by omega]
  ring

end shift_add
