-- Words of a page and an offset: the offset comes round, and the page stays.
import BluMach.Decimal
import Mathlib.Data.Int.ModEq

namespace paged

variable {w n : Nat}

/-- The word `d` after a word, within its page of `2 ^ n` words. -/
def wrapped (n : Nat) (base : BitVec w) (d : Int) : BitVec w :=
  BitVec.ofNat w (2 ^ n * (base.toNat / 2 ^ n) + ((base.toNat + d) % (2 ^ n : Nat)).toNat)

theorem offset_lt (x : Int) : (x % (2 ^ n : Nat)).toNat < 2 ^ n := by
  have hpos : (0 : Int) < (2 ^ n : Nat) := Int.natCast_pos.mpr (Nat.two_pow_pos n)
  have hlt := Int.emod_lt_of_pos x hpos
  have hnn := Int.emod_nonneg x hpos.ne'
  omega

theorem toNat_wrapped (hn : n ≤ w) (base : BitVec w) (d : Int) :
    (wrapped n base d).toNat =
      2 ^ n * (base.toNat / 2 ^ n) + ((base.toNat + d) % (2 ^ n : Nat)).toNat := by
  unfold wrapped
  rw [BitVec.toNat_ofNat]
  refine Nat.mod_eq_of_lt ?_
  have hoffset := offset_lt (n := n) (base.toNat + d)
  have hpage : base.toNat / 2 ^ n < 2 ^ (w - n) := by
    rw [Nat.div_lt_iff_lt_mul (Nat.two_pow_pos n), ← Nat.pow_add, Nat.sub_add_cancel hn]
    exact base.isLt
  calc 2 ^ n * (base.toNat / 2 ^ n) + ((base.toNat + d) % (2 ^ n : Nat)).toNat
      < 2 ^ n * (base.toNat / 2 ^ n) + 2 ^ n := Nat.add_lt_add_left hoffset _
    _ = 2 ^ n * (base.toNat / 2 ^ n + 1) := by rw [Nat.mul_add, Nat.mul_one]
    _ ≤ 2 ^ n * 2 ^ (w - n) := Nat.mul_le_mul_left _ hpage
    _ = 2 ^ w := by rw [← Nat.pow_add, Nat.add_sub_cancel' hn]

theorem page_wrapped (hn : n ≤ w) (base : BitVec w) (d : Int) :
    (wrapped n base d).toNat / 2 ^ n = base.toNat / 2 ^ n := by
  rw [toNat_wrapped hn, Nat.mul_add_div (Nat.two_pow_pos n), Nat.div_eq_of_lt (offset_lt _),
    Nat.add_zero]

/-- The offset of the word `d` after another. -/
theorem offset_wrapped (hn : n ≤ w) (base : BitVec w) (d : Int) :
    (((wrapped n base d).toNat : Int) % (2 ^ n : Nat)) = (base.toNat + d) % (2 ^ n : Nat) := by
  have hpos : (0 : Int) < (2 ^ n : Nat) := Int.natCast_pos.mpr (Nat.two_pow_pos n)
  rw [toNat_wrapped hn, Int.natCast_add, Int.toNat_of_nonneg (Int.emod_nonneg _ hpos.ne'),
    Int.natCast_mul, Int.mul_add_emod_self_left, Int.emod_emod]

theorem wrapped_zero (base : BitVec w) : wrapped n base 0 = base := by
  apply BitVec.eq_of_toNat_eq
  unfold wrapped
  rw [Int.add_zero, ← Int.natCast_mod, Int.toNat_natCast, Nat.div_add_mod, BitVec.toNat_ofNat]
  exact Nat.mod_eq_of_lt base.isLt

theorem wrapped_wrapped (hn : n ≤ w) (base : BitVec w) (d e : Int) :
    wrapped n (wrapped n base d) e = wrapped n base (d + e) := by
  apply BitVec.eq_of_toNat_eq
  rw [toNat_wrapped hn (wrapped n base d), page_wrapped hn, ← Int.emod_add_emod,
    offset_wrapped hn, Int.emod_add_emod, Int.add_assoc, toNat_wrapped hn base]

theorem wrapped_inj (hn : n ≤ w) (base : BitVec w) {d e : Int}
    (h : wrapped n base d = wrapped n base e) : d ≡ e [ZMOD (2 ^ n : Nat)] := by
  have hoffset := congrArg (fun x : BitVec w => (x.toNat : Int) % (2 ^ n : Nat)) h
  simp only [offset_wrapped hn] at hoffset
  exact Int.ModEq.add_left_cancel' _ hoffset

/-! ## Masks -/

section

variable {high low : BitVec w}

theorem toNat_and_high (hn : n ≤ w) (hh : high.toNat = (2 ^ (w - n) - 1) * 2 ^ n)
    (x : BitVec w) : (x &&& high).toNat = 2 ^ n * (x.toNat / 2 ^ n) := by
  have hpage : x.toNat / 2 ^ n < 2 ^ (w - n) := by
    rw [Nat.div_lt_iff_lt_mul (Nat.two_pow_pos n), ← Nat.pow_add, Nat.sub_add_cancel hn]
    exact x.isLt
  rw [BitVec.toNat_and, hh, decimal.and_field, Nat.mod_eq_of_lt hpage, Nat.mul_comm]

theorem toNat_and_low (hl : low.toNat = 2 ^ n - 1) (x : BitVec w) :
    (x &&& low).toNat = x.toNat % 2 ^ n := by
  rw [BitVec.toNat_and, hl, Nat.and_two_pow_sub_one_eq_mod]

/-- The page of one word with the offset of another. -/
theorem splice_eq_wrapped (hn : n ≤ w) (hh : high.toNat = (2 ^ (w - n) - 1) * 2 ^ n)
    (hl : low.toNat = 2 ^ n - 1) {x y : BitVec w} {d : Int}
    (hy : (y.toNat : Int) ≡ x.toNat + d [ZMOD (2 ^ n : Nat)]) :
    x &&& high ||| y &&& low = wrapped n x d := by
  apply BitVec.eq_of_toNat_eq
  have hoffset : y.toNat % 2 ^ n = ((x.toNat + d) % (2 ^ n : Nat)).toNat := by
    rw [← hy, ← Int.natCast_mod, Int.toNat_natCast]
  rw [BitVec.toNat_or, toNat_and_high hn hh, toNat_and_low hl, toNat_wrapped hn, hoffset]
  exact (Nat.two_pow_add_eq_or_of_lt (offset_lt _) _).symm

/-- A mask that keeps the page of a word keeps it of all words of the page. -/
theorem and_mask_of_page (hn : n ≤ w) (hh : high.toNat = (2 ^ (w - n) - 1) * 2 ^ n)
    {x base mask : BitVec w} (hbase : base &&& mask = base)
    (hpage : x.toNat / 2 ^ n = base.toNat / 2 ^ n) : x &&& high &&& mask = x &&& high := by
  have heq : x &&& high = base &&& high := by
    apply BitVec.eq_of_toNat_eq
    rw [toNat_and_high hn hh, toNat_and_high hn hh, hpage]
  rw [heq, BitVec.and_assoc, BitVec.and_comm high, ← BitVec.and_assoc, hbase]

end

end paged
