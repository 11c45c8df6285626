-- Words of four decimal digits, one in each four bits: what number they stand for, and how
-- one less is reached by a borrow.
import Mathlib.Data.Nat.Bitwise

namespace decimal

/-- The number of a word whose hexadecimal digits are read as decimal ones. A one in the
fifth place stands for ten thousand. -/
def value (v : Nat) : Nat :=
  v % 16 + 10 * (v / 16 % 16) + 100 * (v / 256 % 16) + 1000 * (v / 4096 % 16) +
    10000 * (v / 65536)

structure IsDecimal (v : Nat) : Prop where
  ones : v % 16 ≤ 9
  tens : v / 16 % 16 ≤ 9
  hundreds : v / 256 % 16 ≤ 9
  thousands : v / 4096 ≤ 9

/-- One less, with the borrows taken. -/
def pred (v : Nat) : Nat :=
  if v % 16 ≠ 0 then v - 1
  else if v / 16 % 16 ≠ 0 then v - 0x7
  else if v / 256 % 16 ≠ 0 then v - 0x67
  else v - 0x667

/-! ## The four digits -/

/-- The word of four digits. -/
def word (a b c d : Nat) : Nat := a + 16 * b + 256 * c + 4096 * d

section

variable {a b c d : Nat} (ha : a < 16) (hb : b < 16) (hc : c < 16) (hd : d < 16)

theorem exists_word {v : Nat} (h : v < 0x10000) :
    ∃ a < 16, ∃ b < 16, ∃ c < 16, ∃ d < 16, v = word a b c d := by
  refine ⟨v % 16, by omega, v / 16 % 16, by omega, v / 16 / 16 % 16, by omega,
    v / 16 / 16 / 16 % 16, by omega, ?_⟩
  unfold word
  omega

include ha

theorem word_ones : word a b c d % 16 = a := by unfold word; omega

include hb

theorem word_tens : word a b c d / 16 % 16 = b := by unfold word; omega

include hc

theorem word_hundreds : word a b c d / 256 % 16 = c := by unfold word; omega

theorem word_thousands : word a b c d / 4096 = d := by unfold word; omega

theorem isDecimal_word : IsDecimal (word a b c d) ↔ a ≤ 9 ∧ b ≤ 9 ∧ c ≤ 9 ∧ d ≤ 9 := by
  constructor
  · intro ⟨h0, h1, h2, h3⟩
    rw [word_ones ha] at h0
    rw [word_tens ha hb] at h1
    rw [word_hundreds ha hb hc] at h2
    rw [word_thousands ha hb hc] at h3
    exact ⟨h0, h1, h2, h3⟩
  · intro ⟨h0, h1, h2, h3⟩
    exact ⟨(word_ones ha).trans_le h0, (word_tens ha hb).trans_le h1,
      (word_hundreds ha hb hc).trans_le h2, (word_thousands ha hb hc).trans_le h3⟩

include hd

theorem value_word : value (word a b c d) = a + 10 * b + 100 * c + 1000 * d := by
  have hlt : word a b c d / 65536 = 0 := by unfold word; omega
  unfold value
  rw [word_ones ha, word_tens ha hb, word_hundreds ha hb hc, word_thousands ha hb hc,
    hlt]
  omega

theorem pred_word : pred (word a b c d) =
    if a ≠ 0 then word (a - 1) b c d
    else if b ≠ 0 then word 9 (b - 1) c d
    else if c ≠ 0 then word 9 9 (c - 1) d
    else word 9 9 9 d - 4096 := by
  unfold pred
  rw [word_ones ha, word_tens ha hb, word_hundreds ha hb hc]
  unfold word
  split_ifs <;> omega

end

/-! ## Counting down -/

variable {v : Nat}

theorem IsDecimal.lt (h : IsDecimal v) : v < 0x10000 := by
  have := h.thousands
  omega

theorem IsDecimal.value_lt (h : IsDecimal v) : value v < 10000 := by
  obtain ⟨a, ha, b, hb, c, hc, d, hd, rfl⟩ := exists_word h.lt
  have hdigits := (isDecimal_word ha hb hc).mp h
  rw [value_word ha hb hc hd]
  omega

theorem value_eq_zero (h : v < 0x10000) : value v = 0 ↔ v = 0 := by
  obtain ⟨a, ha, b, hb, c, hc, d, hd, rfl⟩ := exists_word h
  rw [value_word ha hb hc hd]
  unfold word
  omega

theorem value_eq_one (h : v < 0x10000) : value v = 1 ↔ v = 1 := by
  obtain ⟨a, ha, b, hb, c, hc, d, hd, rfl⟩ := exists_word h
  rw [value_word ha hb hc hd]
  unfold word
  omega

theorem value_mod_two (h : v < 0x10000) : value v % 2 = v % 2 := by
  obtain ⟨a, ha, b, hb, c, hc, d, hd, rfl⟩ := exists_word h
  rw [value_word ha hb hc hd]
  unfold word
  omega

/-- The word without its lowest bit is the number without its odd one. -/
theorem IsDecimal.even (h : IsDecimal v) :
    IsDecimal (v - v % 2) ∧ value (v - v % 2) = value v - v % 2 := by
  obtain ⟨a, ha, b, hb, c, hc, d, hd, rfl⟩ := exists_word h.lt
  have hdigits := (isDecimal_word ha hb hc).mp h
  have hword : word a b c d - word a b c d % 2 = word (a - a % 2) b c d := by
    unfold word
    omega
  have ha' : a - a % 2 < 16 := by omega
  rw [hword, isDecimal_word ha' hb hc, value_word ha' hb hc hd, value_word ha hb hc hd]
  unfold word
  omega

theorem IsDecimal.pred (h : IsDecimal v) (hv : v ≠ 0) :
    IsDecimal (pred v) ∧ value (pred v) = value v - 1 := by
  obtain ⟨a, ha, b, hb, c, hc, d, hd, rfl⟩ := exists_word h.lt
  have hdigits := (isDecimal_word ha hb hc).mp h
  have h9 : 9 < 16 := by omega
  rw [pred_word ha hb hc hd, value_word ha hb hc hd]
  split_ifs with hones htens hhundreds
  · have ha' : a - 1 < 16 := by omega
    rw [isDecimal_word ha' hb hc, value_word ha' hb hc hd]
    omega
  · have hb' : b - 1 < 16 := by omega
    rw [isDecimal_word h9 hb' hc, value_word h9 hb' hc hd]
    omega
  · have hc' : c - 1 < 16 := by omega
    rw [isDecimal_word h9 h9 hc', value_word h9 h9 hc' hd]
    omega
  · have hd' : d - 1 < 16 := by omega
    have hword : word 9 9 9 d - 4096 = word 9 9 9 (d - 1) := by
      unfold word at hv ⊢
      omega
    rw [hword, isDecimal_word h9 h9 h9, value_word h9 h9 h9 hd']
    unfold word at hv
    omega

/-- Two bytes of decimal digits make a word of them. -/
theorem isDecimal_of_bytes {low high : Nat} (hlow : IsDecimal low) (hl : low < 0x100)
    (hhigh : IsDecimal high) (hh : high < 0x100) : IsDecimal (low + 0x100 * high) := by
  obtain ⟨l0, l1, -, -⟩ := hlow
  obtain ⟨h0, h1, -, -⟩ := hhigh
  refine ⟨?_, ?_, ?_, ?_⟩ <;> omega

/-! ## Digits by masks -/

theorem and_ones (v : Nat) : v &&& 0x000f = v % 16 :=
  Nat.and_two_pow_sub_one_eq_mod v 4

theorem and_word (v : Nat) : v &&& 0xffff = v % 0x10000 :=
  Nat.and_two_pow_sub_one_eq_mod v 16

/-- A mask of `w` ones in a row, from bit `k` on. -/
theorem and_field (v w k : Nat) :
    v &&& ((2 ^ w - 1) * 2 ^ k) = v / 2 ^ k % 2 ^ w * 2 ^ k := by
  have hmod : (v &&& ((2 ^ w - 1) * 2 ^ k)) % 2 ^ k = 0 := by
    rw [Nat.and_mod_two_pow, Nat.mul_mod_left, Nat.and_zero]
  have hdiv : (v &&& ((2 ^ w - 1) * 2 ^ k)) / 2 ^ k = v / 2 ^ k % 2 ^ w := by
    rw [Nat.and_div_two_pow, Nat.mul_div_cancel _ (Nat.two_pow_pos k)]
    exact Nat.and_two_pow_sub_one_eq_mod _ w
  have h := Nat.div_add_mod (v &&& ((2 ^ w - 1) * 2 ^ k)) (2 ^ k)
  rw [hmod, hdiv, Nat.mul_comm] at h
  exact h.symm

theorem and_tens (v : Nat) : v &&& 0x00f0 = v / 16 % 16 * 16 := and_field v 4 4

theorem and_hundreds (v : Nat) : v &&& 0x0f00 = v / 256 % 16 * 256 := and_field v 4 8

/-- The mask that clears the lowest bit of a word. -/
theorem and_even {v : Nat} (h : v < 0x10000) : v &&& 0xfffe = v - v % 2 := by
  have hmod : (v &&& 0xfffe) % 2 ^ 1 = 0 := by
    rw [Nat.and_mod_two_pow]
    exact Nat.and_zero _
  have hdiv : (v &&& 0xfffe) / 2 ^ 1 = v / 2 % 2 ^ 15 := by
    rw [Nat.and_div_two_pow]
    exact Nat.and_two_pow_sub_one_eq_mod _ 15
  omega

end decimal
