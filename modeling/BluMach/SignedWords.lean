-- Two's complement in numbers: what a word of `n` bits reads as with a sign and without, its
-- magnitude, and the word of the other sign.
import Mathlib.Data.Int.Cast.Basic
import Mathlib.Algebra.Order.Ring.Int
import Mathlib.Data.Int.ModEq
import Mathlib.Tactic.Ring
import Mathlib.Tactic.SplitIfs

namespace signed_words

/-- The word is below 0. Without a sign none is. -/
def negative (signed : Bool) (n x : Nat) : Bool := signed && decide (2 ^ (n - 1) ≤ x)

/-- What the word stands for. -/
def reading (signed : Bool) (n x : Nat) : Int := if negative signed n x then x - 2 ^ n else x

/-- The word without its sign. -/
def magnitude (signed : Bool) (n x : Nat) : Nat := if negative signed n x then 2 ^ n - x else x

/-- The word of the other sign, and the same word without `cond`. -/
def complementIf (cond : Bool) (n x : Nat) : Nat := if cond then (2 ^ n - x) % 2 ^ n else x

/-- A number with the sign that `cond` gives it. -/
def withSign (cond : Bool) (x : Nat) : Int := if cond then -(x : Int) else x

variable {signed cond : Bool} {n x y : Nat}

theorem two_pow_half (hn : 0 < n) : 2 ^ n = 2 * 2 ^ (n - 1) := by
  rw [← Nat.pow_succ', show (n - 1).succ = n by omega]

theorem reading_eq (hx : x < 2 ^ n) :
    reading signed n x = withSign (negative signed n x) (magnitude signed n x) := by
  unfold reading withSign magnitude
  split_ifs with h
  · rw [Nat.cast_sub hx.le, Nat.cast_pow, Nat.cast_two]
    omega
  · rfl

theorem magnitude_eq_zero (hx : x < 2 ^ n) : magnitude signed n x = 0 ↔ x = 0 := by
  unfold magnitude negative
  have hpos := Nat.two_pow_pos (n - 1)
  split_ifs with h
  · simp only [Bool.and_eq_true, decide_eq_true_eq] at h
    omega
  · rfl

theorem magnitude_lt (hx : x < 2 ^ n) : magnitude signed n x < 2 ^ n := by
  unfold magnitude negative
  have hpos := Nat.two_pow_pos (n - 1)
  split_ifs with h
  · simp only [Bool.and_eq_true, decide_eq_true_eq] at h
    omega
  · exact hx

/-- With a sign half of the range is left for the magnitude. -/
theorem magnitude_le (hn : 0 < n) (hx : x < 2 ^ n) : magnitude true n x ≤ 2 ^ (n - 1) := by
  have hhalf := two_pow_half hn
  unfold magnitude negative
  split_ifs with h
  · simp only [Bool.true_and, decide_eq_true_eq] at h
    omega
  · simp only [Bool.true_and, decide_eq_true_eq] at h
    omega

theorem complementIf_lt (hx : x < 2 ^ n) : complementIf cond n x < 2 ^ n := by
  unfold complementIf
  split_ifs
  · exact Nat.mod_lt _ (Nat.two_pow_pos n)
  · exact hx

theorem complementIf_injective (hx : x < 2 ^ n) (hy : y < 2 ^ n)
    (h : complementIf cond n x = complementIf cond n y) : x = y := by
  unfold complementIf at h
  split_ifs at h
  · rcases Nat.eq_zero_or_pos x with rfl | hxpos <;> rcases Nat.eq_zero_or_pos y with rfl | hypos
    · rfl
    · rw [Nat.sub_zero, Nat.mod_self, Nat.mod_eq_of_lt (by omega)] at h
      omega
    · rw [Nat.sub_zero, Nat.mod_self, Nat.mod_eq_of_lt (by omega)] at h
      omega
    · rw [Nat.mod_eq_of_lt (by omega), Nat.mod_eq_of_lt (by omega)] at h
      omega
  · exact h

/-- Two words that read the same are the same. -/
theorem reading_injective (hx : x < 2 ^ n) (hy : y < 2 ^ n)
    (h : reading signed n x = reading signed n y) : x = y := by
  have hcast : ((2 ^ n : Nat) : Int) = 2 ^ n := by rw [Nat.cast_pow, Nat.cast_two]
  unfold reading at h
  rw [← hcast] at h
  split_ifs at h <;> omega

/-- A word that reads as the magnitude it is, where there is room for it, or without a sign. -/
theorem reading_magnitude (h : signed = true → x < 2 ^ (n - 1)) : reading signed n x = x := by
  have hnot : negative signed n x = false := by
    unfold negative
    cases signed with
    | false => rfl
    | true =>
      have hlt := h rfl
      simp only [Bool.true_and, decide_eq_false_iff_not]
      omega
  rw [reading, hnot]
  rfl

/-- The complement reads as the number with the other sign. -/
theorem reading_complementIf (hn : 0 < n) (hsigned : cond = true → signed = true)
    (hle : cond = true → x ≤ 2 ^ (n - 1))
    (hlt : cond = false → signed = true → x < 2 ^ (n - 1)) :
    reading signed n (complementIf cond n x) = withSign cond x := by
  have hhalf := two_pow_half hn
  have hpos := Nat.two_pow_pos (n - 1)
  cases cond with
  | false => exact reading_magnitude (hlt rfl)
  | true =>
    have hbound := hle rfl
    rw [hsigned rfl]
    unfold complementIf withSign
    simp only [if_true]
    rcases Nat.eq_zero_or_pos x with rfl | hx
    · rw [Nat.sub_zero, Nat.mod_self, reading_magnitude (fun _ => hpos)]
      rfl
    · have hnegative : negative true n (2 ^ n - x) = true := by
        unfold negative
        simp only [Bool.true_and, decide_eq_true_eq]
        omega
      rw [Nat.mod_eq_of_lt (by omega), reading, hnegative, if_pos rfl,
        Nat.cast_sub (by omega), Nat.cast_pow, Nat.cast_two]
      omega

/-- The complement of two registers, with the carry between them. -/
theorem complement_pair {c a : Nat} (hc : c < 2 ^ n) (ha : a < 2 ^ n) :
    (2 ^ n - 1 - c + if (2 ^ n - a) % 2 ^ n = 0 then 1 else 0) % 2 ^ n * 2 ^ n +
        (2 ^ n - a) % 2 ^ n =
      (2 ^ (2 * n) - (c * 2 ^ n + a)) % 2 ^ (2 * n) := by
  have hdouble : 2 ^ (2 * n) = 2 ^ n * 2 ^ n := by rw [Nat.two_mul, Nat.pow_add]
  rw [hdouble]
  generalize 2 ^ n = size at *
  have hle : (c + 1) * size ≤ size * size := Nat.mul_le_mul_right _ hc
  rw [Nat.add_mul, Nat.one_mul] at hle
  rcases Nat.eq_zero_or_pos a with rfl | hapos
  · have hone : size - 1 - c + 1 = size - c := by omega
    have hlow : c * size + 0 = c * size := Nat.add_zero _
    rw [Nat.sub_zero, Nat.mod_self, if_pos rfl, hone, hlow, Nat.add_zero, ← Nat.sub_mul,
      Nat.mul_mod_mul_right]
  · rw [Nat.mod_eq_of_lt (by omega : size - a < size), if_neg (by omega), Nat.add_zero,
      Nat.mod_eq_of_lt (by omega), Nat.mod_eq_of_lt (by omega), Nat.sub_mul, Nat.sub_mul]
    omega

/-- The upper half tells the sign. -/
theorem negative_pair (hn : 0 < n) {c a : Nat} (ha : a < 2 ^ n) :
    negative signed (2 * n) (c * 2 ^ n + a) = negative signed n c := by
  have hpow : 2 ^ (2 * n - 1) = 2 ^ (n - 1) * 2 ^ n := by
    rw [← Nat.pow_add]
    congr 1
    omega
  have hdiv : (c * 2 ^ n + a) / 2 ^ n = c := by
    rw [Nat.mul_comm, Nat.mul_add_div (Nat.two_pow_pos n), Nat.div_eq_of_lt ha, Nat.add_zero]
  unfold negative
  congr 1
  rw [decide_eq_decide, hpow, ← Nat.le_div_iff_mul_le (Nat.two_pow_pos n), hdiv]

/-- The magnitude of two registers below 0. -/
theorem magnitude_pair (hn : 0 < n) {c a : Nat} (hc : c < 2 ^ n) (ha : a < 2 ^ n)
    (h : negative true n c = true) :
    (2 ^ n - 1 - c + if (2 ^ n - a) % 2 ^ n = 0 then 1 else 0) % 2 ^ n * 2 ^ n +
        (2 ^ n - a) % 2 ^ n =
      magnitude true (2 * n) (c * 2 ^ n + a) := by
  have hneg := (negative_pair hn ha).trans h
  have hpos := Nat.two_pow_pos (n - 1)
  have hmul := Nat.mul_pos (Nat.two_pow_pos (n - 1)) (Nat.two_pow_pos n)
  rw [negative, Bool.true_and, decide_eq_true_iff] at h
  have hle : 2 ^ (n - 1) * 2 ^ n ≤ c * 2 ^ n := Nat.mul_le_mul_right _ h
  rw [complement_pair hc ha, magnitude, hneg, if_pos rfl,
    Nat.mod_eq_of_lt (Nat.sub_lt (Nat.two_pow_pos _) (by omega))]

/-! ## Up to the width -/

theorem reading_modEq : reading signed n x ≡ x [ZMOD 2 ^ n] := by
  unfold reading
  split_ifs
  · exact (Int.modEq_iff_dvd.mpr ⟨1, by ring⟩)
  · rfl

theorem withSign_modEq {m : Int} (h : (x : Int) ≡ y [ZMOD m]) :
    withSign cond x ≡ withSign cond y [ZMOD m] := by
  unfold withSign
  split_ifs
  · exact h.neg
  · exact h

theorem complementIf_modEq (hx : x < 2 ^ n) :
    (complementIf cond n x : Int) ≡ withSign cond x [ZMOD 2 ^ n] := by
  unfold complementIf withSign
  split_ifs
  · rw [Int.natCast_mod, Nat.cast_pow, Nat.cast_two, Nat.cast_sub hx.le, Nat.cast_pow, Nat.cast_two]
    exact (Int.mod_modEq _ _).trans (Int.modEq_iff_dvd.mpr ⟨-1, by ring⟩)
  · rfl

/-! ## Products and quotients of numbers with signs -/

variable {c d : Bool}

theorem withSign_mul : withSign c x * withSign d y = withSign (c ^^ d) (x * y) := by
  unfold withSign
  cases c <;> cases d <;>
    simp only [Bool.false_xor, Bool.true_xor, Bool.not_false, Bool.not_true, if_true,
      Bool.false_eq_true, if_false, Int.neg_mul, Int.mul_neg, Int.neg_neg, Nat.cast_mul]

theorem withSign_tdiv : (withSign c x).tdiv (withSign d y) = withSign (c ^^ d) (x / y) := by
  unfold withSign
  cases c <;> cases d <;>
    simp only [Bool.false_xor, Bool.true_xor, Bool.not_false, Bool.not_true, if_true,
      Bool.false_eq_true, if_false, Int.neg_tdiv, Int.tdiv_neg, Int.neg_neg, Int.ofNat_tdiv]

theorem withSign_tmod : (withSign c x).tmod (withSign d y) = withSign c (x % y) := by
  unfold withSign
  cases c <;> cases d <;>
    simp only [if_true, Bool.false_eq_true, if_false, Int.neg_tmod, Int.tmod_neg, Int.ofNat_tmod]

theorem withSign_eq_zero : withSign c x = 0 ↔ x = 0 := by
  unfold withSign
  split_ifs <;> omega

theorem natAbs_withSign : (withSign c x).natAbs = x := by
  unfold withSign
  split_ifs <;> omega

/-- The quotient has no word of `n` bits. -/
def NoQuotient (signed : Bool) (n : Nat) (dividend divisor : Int) : Prop :=
  divisor = 0 ∨ 2 ^ (if signed then n - 1 else n) ≤ (dividend.tdiv divisor).natAbs

/-- That only depends on the magnitudes. -/
theorem noQuotient_iff :
    NoQuotient signed n (withSign c x) (withSign d y) ↔
      y = 0 ∨ 2 ^ (if signed then n - 1 else n) ≤ x / y := by
  rw [NoQuotient, withSign_eq_zero, withSign_tdiv, natAbs_withSign]

/-- The word of a product, which is twice as wide. -/
theorem reading_product (hn : 0 < n) (hx : x < 2 ^ n) (hy : y < 2 ^ n) :
    reading signed (2 * n) (complementIf (negative signed n x ^^ negative signed n y) (2 * n)
        (magnitude signed n x * magnitude signed n y)) =
      reading signed n x * reading signed n y := by
  rw [reading_eq hx, reading_eq hy, withSign_mul]
  cases signed with
  | false => exact reading_magnitude nofun
  | true =>
    have hle : magnitude true n x * magnitude true n y ≤ 2 ^ (n - 1) * 2 ^ (n - 1) :=
      Nat.mul_le_mul (magnitude_le hn hx) (magnitude_le hn hy)
    have hroom : 2 ^ (n - 1) * 2 ^ (n - 1) < 2 ^ (2 * n - 1) := by
      rw [← Nat.pow_add]
      exact Nat.pow_lt_pow_right (by decide) (by omega)
    exact reading_complementIf (by omega) (fun _ => rfl) (fun _ => (hle.trans_lt hroom).le)
      (fun _ _ => hle.trans_lt hroom)

end signed_words
