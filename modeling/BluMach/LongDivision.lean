-- Long division in binary, as processors do it: the digits of the dividend go out of a register on
-- one side, and the digits of the quotient come in on the other, each of them turned over.
import Mathlib.Logic.Function.Iterate
import Mathlib.Tactic.Ring
import Mathlib.Tactic.SplitIfs

namespace long_division

/-- What is left of the dividend, the register of the digits, and the digit that goes in next. -/
@[ext] structure State where
  rest : Nat
  digits : Nat
  carry : Bool
deriving DecidableEq, Repr

/-- The rest with the next digit of the dividend. -/
def State.next (n : Nat) (s : State) : Nat := 2 * s.rest + s.digits / 2 ^ (n - 1)

/-- One turn. The divisor is taken off the rest where it goes in. -/
def turn (n divisor : Nat) (s : State) : State where
  rest := if divisor ≤ s.next n then s.next n - divisor else s.next n
  digits := (2 * s.digits + s.carry.toNat) % 2 ^ n
  carry := ¬divisor ≤ s.next n

/-- What has been looked at after `k` turns of the dividend `high * 2 ^ n + low`. -/
def part (n high low k : Nat) : Nat := high * 2 ^ k + low / 2 ^ (n - k)

/-- After `k` turns: that part is divided, and the register holds the other digits above a mark and
the digits of the quotient. -/
structure Divided (n divisor high low k : Nat) (s : State) : Prop where
  rest : s.rest = part n high low k % divisor
  quotient : part n high low k / divisor < 2 ^ k
  digits : 2 * s.digits + s.carry.toNat + 1 + part n high low k / divisor =
    2 ^ (k + 1) * (low % 2 ^ (n - k) + 1)

variable {n divisor high low k : Nat} {s : State}

theorem divided_start (hhigh : high < divisor) (hlow : low < 2 ^ n) :
    Divided n divisor high low 0 ⟨high, low, true⟩ := by
  have hpart : part n high low 0 = high := by
    unfold part
    rw [Nat.sub_zero, Nat.div_eq_of_lt hlow, Nat.pow_zero, Nat.mul_one, Nat.add_zero]
  have hall : low % 2 ^ (n - 0) = low := Nat.mod_eq_of_lt hlow
  refine ⟨?_, ?_, ?_⟩
  · rw [hpart]
    exact (Nat.mod_eq_of_lt hhigh).symm
  · rw [hpart, Nat.div_eq_of_lt hhigh]
    exact Nat.one_pos
  · rw [hpart, Nat.div_eq_of_lt hhigh, hall]
    simp only [Bool.toNat_true]
    omega

/-- The digit that goes out of the register is the next one of the dividend. -/
theorem Divided.top (h : Divided n divisor high low k s) (hk : k < n) :
    s.digits / 2 ^ (n - 1) = low / 2 ^ (n - 1 - k) % 2 := by
  have hmod : low % 2 ^ (n - k) / 2 ^ (n - 1 - k) = low / 2 ^ (n - 1 - k) % 2 := by
    rw [show n - k = n - 1 - k + 1 by omega, Nat.pow_succ, Nat.mod_mul_right_div_self]
  have hpow : 2 ^ (n - 1) = 2 ^ k * 2 ^ (n - 1 - k) := by
    rw [← Nat.pow_add]
    congr 1
    omega
  have hcarry := Bool.toNat_le s.carry
  have hdigits := h.digits
  have hquotient := h.quotient
  rw [Nat.pow_succ] at hdigits
  generalize part n high low k / divisor = q at *
  rw [← hmod, hpow, ← Nat.div_div_eq_div_mul]
  congr 1
  generalize low % 2 ^ (n - k) = m at *
  -- below the other digits there is less than one of them
  have hbelow : s.digits = 2 ^ k * m + (s.digits - 2 ^ k * m) ∧ s.digits - 2 ^ k * m < 2 ^ k := by
    have hexpand : 2 ^ k * 2 * (m + 1) = 2 * (2 ^ k * m) + 2 * 2 ^ k := by ring
    omega
  rw [hbelow.1, Nat.mul_add_div (Nat.two_pow_pos k), Nat.div_eq_of_lt hbelow.2, Nat.add_zero]

/-- A turn leaves less than the divisor, as it found it. -/
theorem turn_rest_lt (hrest : s.rest < divisor) (hdigits : s.digits < 2 ^ n) :
    (turn n divisor s).rest < divisor := by
  have htop : s.digits / 2 ^ (n - 1) ≤ 1 := by
    have hpow : 2 ^ n ≤ 2 * 2 ^ (n - 1) := by
      rw [← Nat.pow_succ']
      exact Nat.pow_le_pow_right (by decide) (by omega)
    exact Nat.le_of_lt_succ ((Nat.div_lt_iff_lt_mul (Nat.two_pow_pos _)).mpr (by omega))
  change (if divisor ≤ s.next n then s.next n - divisor else s.next n) < divisor
  unfold State.next
  split_ifs <;> omega

/-- The part that has been looked at, with one digit more. -/
theorem part_succ (hk : k < n) :
    part n high low (k + 1) = 2 * part n high low k + low / 2 ^ (n - 1 - k) % 2 := by
  have hshift : low / 2 ^ (n - k) = low / 2 ^ (n - 1 - k) / 2 := by
    rw [Nat.div_div_eq_div_mul, ← Nat.pow_succ, show (n - 1 - k).succ = n - k by omega]
  have hring : high * 2 ^ (k + 1) = 2 * (high * 2 ^ k) := by ring
  unfold part
  rw [hshift, show n - (k + 1) = n - 1 - k by omega, hring]
  omega

/-- A number with one digit more, divided. -/
theorem divide_succ {x digit : Nat} (hdigit : digit ≤ 1) (hpos : 0 < divisor) :
    (2 * x + digit) / divisor =
        2 * (x / divisor) + (if divisor ≤ 2 * (x % divisor) + digit then 1 else 0) ∧
      (2 * x + digit) % divisor =
        if divisor ≤ 2 * (x % divisor) + digit then 2 * (x % divisor) + digit - divisor
        else 2 * (x % divisor) + digit := by
  have hx := Nat.div_add_mod x divisor
  have hrest := Nat.mod_lt x hpos
  have hsplit : 2 * x + digit =
      divisor * (2 * (x / divisor)) + (2 * (x % divisor) + digit) := by
    have hring : divisor * (2 * (x / divisor)) = 2 * (divisor * (x / divisor)) := by ring
    omega
  generalize x % divisor = r at *
  generalize x / divisor = q at *
  rw [hsplit, Nat.mul_add_div hpos, Nat.mul_add_mod]
  split_ifs with hle
  · have hlt : 2 * r + digit - divisor < divisor := by omega
    have hone : (2 * r + digit) / divisor = 1 := by
      rw [Nat.div_eq_iff hpos]
      omega
    rw [hone, Nat.mod_eq_sub_mod hle, Nat.mod_eq_of_lt hlt]
    exact ⟨rfl, rfl⟩
  · have hlt : 2 * r + digit < divisor := by omega
    rw [Nat.div_eq_of_lt hlt, Nat.mod_eq_of_lt hlt]
    exact ⟨rfl, rfl⟩

/-- The register after a turn, but for the digit that goes in next. -/
theorem Divided.shifted (h : Divided n divisor high low k s) (hk : k < n) :
    (2 * s.digits + s.carry.toNat) % 2 ^ n + 1 + part n high low k / divisor =
      2 ^ (k + 1) * (low % 2 ^ (n - (k + 1)) + 1) := by
  have hpow : 2 ^ n = 2 ^ (k + 1) * 2 ^ (n - (k + 1)) := by
    rw [← Nat.pow_add]
    congr 1
    omega
  have hmod : low % 2 ^ (n - k) % 2 ^ (n - (k + 1)) = low % 2 ^ (n - (k + 1)) :=
    Nat.mod_mod_of_dvd _ (Nat.pow_dvd_pow 2 (by omega))
  have hdigits := h.digits
  have hquotient := h.quotient
  have hdouble : 2 ^ (k + 1) = 2 * 2 ^ k := by rw [Nat.pow_succ, Nat.mul_comm]
  generalize part n high low k / divisor = q at *
  have hregister : 2 * s.digits + s.carry.toNat =
      2 ^ (k + 1) * (low % 2 ^ (n - k)) + (2 ^ (k + 1) - 1 - q) := by
    rw [Nat.mul_add] at hdigits
    omega
  have hlt : 2 ^ (k + 1) - 1 - q < 2 ^ (k + 1) := by omega
  rw [hregister, hpow, Nat.mod_mul, Nat.mul_add_mod, Nat.mod_eq_of_lt hlt,
    Nat.mul_add_div (Nat.two_pow_pos _), Nat.div_eq_of_lt hlt, Nat.add_zero (low % 2 ^ (n - k)),
    hmod, Nat.mul_add]
  omega

theorem Divided.turn (h : Divided n divisor high low k s) (hk : k < n) (hpos : 0 < divisor) :
    Divided n divisor high low (k + 1) (turn n divisor s) := by
  have hnext : s.next n = 2 * (part n high low k % divisor) + low / 2 ^ (n - 1 - k) % 2 := by
    unfold State.next
    rw [h.top hk, h.rest]
  obtain ⟨hdiv, hmod⟩ := @divide_succ divisor (part n high low k) (low / 2 ^ (n - 1 - k) % 2)
    (by omega) hpos
  have hquotient := h.quotient
  have hdigits := h.digits
  have hpow : 2 ^ (k + 1) = 2 * 2 ^ k := by rw [Nat.pow_succ, Nat.mul_comm]
  rw [← part_succ hk, ← hnext] at hdiv hmod
  refine ⟨hmod.symm, ?_, ?_⟩
  · rw [hdiv, hpow]
    split_ifs <;> omega
  · have hregister := h.shifted hk
    have hdouble : 2 ^ (k + 1 + 1) * (low % 2 ^ (n - (k + 1)) + 1) =
        2 * (2 ^ (k + 1) * (low % 2 ^ (n - (k + 1)) + 1)) := by
      rw [Nat.pow_succ, Nat.mul_comm (2 ^ (k + 1)) 2, Nat.mul_assoc]
    rw [hdouble, ← hregister, hdiv]
    unfold long_division.turn
    by_cases hle : divisor ≤ s.next n
    · simp only [hle, if_true, not_true, decide_false, Bool.toNat_false]
      omega
    · simp only [hle, if_false, not_false_eq_true, decide_true, Bool.toNat_true]
      omega

/-- The rest stays below the divisor. -/
theorem Divided.rest_lt (h : Divided n divisor high low k s) (hpos : 0 < divisor) :
    s.rest < divisor := by
  rw [h.rest]
  exact Nat.mod_lt _ hpos

theorem divided_turns (hhigh : high < divisor) (hlow : low < 2 ^ n) (hk : k ≤ n) :
    Divided n divisor high low k ((long_division.turn n divisor)^[k] ⟨high, low, true⟩) := by
  induction k with
  | zero => exact divided_start hhigh hlow
  | succ k ih =>
    rw [Function.iterate_succ_apply']
    exact (ih (by omega)).turn hk (Nat.zero_lt_of_lt hhigh)

/-- After all turns the rest is the remainder, and the register holds the quotient turned over. -/
theorem turns_all (hhigh : high < divisor) (hlow : low < 2 ^ n) {s : State}
    (hs : (long_division.turn n divisor)^[n] ⟨high, low, true⟩ = s) :
    s.rest = (high * 2 ^ n + low) % divisor ∧
      (2 * s.digits + s.carry.toNat) % 2 ^ n + (high * 2 ^ n + low) / divisor + 1 = 2 ^ n := by
  have h := divided_turns hhigh hlow (Nat.le_refl n)
  rw [hs] at h
  have hpart : part n high low n = high * 2 ^ n + low := by
    unfold part
    rw [Nat.sub_self, Nat.pow_zero, Nat.div_one]
  have hrest := h.rest
  have hquotient := h.quotient
  have hdigits := h.digits
  rw [hpart] at hrest hquotient hdigits
  refine ⟨hrest, ?_⟩
  rw [Nat.sub_self, Nat.pow_zero, Nat.mod_one, Nat.pow_succ] at hdigits
  generalize (high * 2 ^ n + low) / divisor = q at *
  rw [Nat.mod_eq_sub_mod (by omega), Nat.mod_eq_of_lt (by omega)]
  omega

end long_division
