-- Add and subtract with carry in the two builds. The build without the new
-- dynarec computes the flags at once; the other build keeps the operands and
-- finds the carries later. They agree, except on the auxiliary carry of some
-- additions, where the lazy build compares the whole of the second operand
-- with all ones and not its low digit with 0xf.
import Mathlib.Tactic.Ring
import BluMach.FlagsRead

namespace blumach.x86_flags

open arith_flags

/-! ## The eager functions -/

namespace eager

def setadc8 (tempc : Bool) (a b : BitVec 8) (st : CpuState) : CpuState :=
  let c : BitVec 16 := (int32 a + int32 b + tempcInt tempc).setWidth 16
  let flags := st.flags &&& ~~~0x8D5
  let flags := flags ||| znptable8 (c.setWidth 8)
  let flags := orIf flags (isSet (int32 c &&& 0x100)) C_FLAG
  let flags := orIf flags (!isSet ((int32 a ^^^ int32 b) &&& 0x80) &&
    isSet ((int32 a ^^^ int32 c) &&& 0x80)) V_FLAG
  let flags := orIf flags
    (isSet (((int32 a &&& 0xf) + (int32 b &&& 0xf) + tempcInt tempc) &&& 0x10)) A_FLAG
  { st with flags_op := .FLAGS_UNKNOWN, flags }

def setadc16 (tempc : Bool) (a b : BitVec 16) (st : CpuState) : CpuState :=
  let c : BitVec 32 := int32 a + int32 b + tempcInt tempc
  let flags := st.flags &&& ~~~0x8D5
  let flags := flags ||| znptable16 (c.setWidth 16)
  let flags := orIf flags (isSet (c &&& 0x10000)) C_FLAG
  let flags := orIf flags (!isSet ((int32 a ^^^ int32 b) &&& 0x8000) &&
    isSet ((int32 a ^^^ c) &&& 0x8000)) V_FLAG
  let flags := orIf flags
    (isSet (((int32 a &&& 0xf) + (int32 b &&& 0xf) + tempcInt tempc) &&& 0x10)) A_FLAG
  { st with flags_op := .FLAGS_UNKNOWN, flags }

def setadc32 (tempc : Bool) (a b : BitVec 32) (st : CpuState) : CpuState :=
  let c : BitVec 32 := a + b + tempcInt tempc
  let flags := st.flags &&& ~~~0x8D5
  let flags := flags |||
    (if isSet (c &&& 0x80000000) then N_FLAG else if c = 0 then Z_FLAG else 0)
  let flags := flags ||| (znptable8 (c.setWidth 8) &&& P_FLAG)
  let flags := orIf flags (decide (c < a) || (c == a && tempc)) C_FLAG
  let flags := orIf flags (!isSet ((a ^^^ b) &&& 0x80000000) &&
    isSet ((a ^^^ c) &&& 0x80000000)) V_FLAG
  let flags := orIf flags
    (isSet (((a &&& 0xf) + (b &&& 0xf) + tempcInt tempc) &&& 0x10)) A_FLAG
  { st with flags_op := .FLAGS_UNKNOWN, flags }

def setsbc8 (tempc : Bool) (a b : BitVec 8) (st : CpuState) : CpuState :=
  let c : BitVec 16 := (int32 a - (int32 b + tempcInt tempc)).setWidth 16
  let flags := st.flags &&& ~~~0x8D5
  let flags := flags ||| znptable8 (c.setWidth 8)
  let flags := orIf flags (isSet (int32 c &&& 0x100)) C_FLAG
  let flags := orIf flags
    (isSet ((int32 a ^^^ int32 b) &&& (int32 a ^^^ int32 c) &&& 0x80)) V_FLAG
  let flags := orIf flags
    (isSet (((int32 a &&& 0xf) - ((int32 b &&& 0xf) + tempcInt tempc)) &&& 0x10)) A_FLAG
  { st with flags_op := .FLAGS_UNKNOWN, flags }

def setsbc16 (tempc : Bool) (a b : BitVec 16) (st : CpuState) : CpuState :=
  let c : BitVec 32 := int32 a - (int32 b + tempcInt tempc)
  let flags := st.flags &&& ~~~0x8D5
  let flags := flags ||| (znptable16 (c.setWidth 16) &&& ~~~4)
  let flags := flags ||| (znptable8 (c.setWidth 8) &&& 4)
  let flags := orIf flags (isSet (c &&& 0x10000)) C_FLAG
  let flags := orIf flags
    (isSet ((int32 a ^^^ int32 b) &&& (int32 a ^^^ c) &&& 0x8000)) V_FLAG
  let flags := orIf flags
    (isSet (((int32 a &&& 0xf) - ((int32 b &&& 0xf) + tempcInt tempc)) &&& 0x10)) A_FLAG
  { st with flags_op := .FLAGS_UNKNOWN, flags }

def setsbc32 (tempc : Bool) (a b : BitVec 32) (st : CpuState) : CpuState :=
  let c : BitVec 32 := a - (b + tempcInt tempc)
  let flags := st.flags &&& ~~~0x8D5
  let flags := flags |||
    (if isSet (c &&& 0x80000000) then N_FLAG else if c = 0 then Z_FLAG else 0)
  let flags := flags ||| (znptable8 (c.setWidth 8) &&& P_FLAG)
  let flags := orIf flags (decide (a < c) || (c == a && tempc)) C_FLAG
  let flags := orIf flags (isSet ((a ^^^ b) &&& (a ^^^ c) &&& 0x80000000)) V_FLAG
  let flags := orIf flags
    (isSet (((a &&& 0xf) - ((b &&& 0xf) + tempcInt tempc)) &&& 0x10)) A_FLAG
  { st with flags_op := .FLAGS_UNKNOWN, flags }

end eager

/-! ## Words that stand for a result -/

theorem toNat_tempcInt (tempc : Bool) : (tempcInt tempc).toNat = tempc.toNat := by
  cases tempc <;> rfl

theorem low_digit (x : BitVec 32) : (x &&& 0xf).toNat = x.toNat % 16 := by
  rw [BitVec.toNat_and]
  exact Nat.and_two_pow_sub_one_eq_mod x.toNat 4

theorem getLsbD_eq_decide {w : Nat} (x : BitVec w) (i : Nat) :
    x.getLsbD i = decide (x.toNat / 2 ^ i % 2 = 1) := by
  rw [BitVec.getLsbD, Nat.testBit_eq_decide_div_mod_eq]

/-- A narrow sum, and its carry, inside a 32-bit one. -/
theorem narrow_add {w : Nat} (hw : w < 32) (tempc : Bool) (a b : BitVec w) :
    (int32 a + int32 b + tempcInt tempc).toNat = a.toNat + b.toNat + tempc.toNat := by
  have hp : 2 * 2 ^ w ≤ 2 ^ 32 := by
    rw [← Nat.pow_succ']; exact Nat.pow_le_pow_right (by omega) hw
  have ha := a.isLt
  have hb := b.isLt
  have hc := cin_le_one tempc
  rw [BitVec.toNat_add, BitVec.toNat_add, toNat_int32 a (by omega), toNat_int32 b (by omega),
    toNat_tempcInt, Nat.mod_add_mod, Nat.mod_eq_of_lt (by omega)]

/-- A narrow difference wraps round all of the 32 bits. -/
theorem narrow_sub {w : Nat} (hw : w < 32) (tempc : Bool) (a b : BitVec w) :
    (int32 a - (int32 b + tempcInt tempc)).toNat =
      if a.toNat < b.toNat + tempc.toNat
      then 2 ^ 32 + a.toNat - (b.toNat + tempc.toNat)
      else a.toNat - (b.toNat + tempc.toNat) := by
  have hp : 2 * 2 ^ w ≤ 2 ^ 32 := by
    rw [← Nat.pow_succ']; exact Nat.pow_le_pow_right (by omega) hw
  have ha := a.isLt
  have hb := b.isLt
  have hc := cin_le_one tempc
  have hs : (int32 b + tempcInt tempc).toNat = b.toNat + tempc.toNat := by
    rw [BitVec.toNat_add, toNat_int32 b (by omega), toNat_tempcInt, Nat.mod_eq_of_lt (by omega)]
  rw [BitVec.toNat_sub, hs, toNat_int32 a (by omega)]
  split <;> omega

/-- The low `w` bits of a narrow sum are the result. -/
theorem setWidth_narrow_add {w : Nat} (hw : w < 32) (tempc : Bool) (a b : BitVec w) :
    (int32 a + int32 b + tempcInt tempc).setWidth w = addResult a b tempc := by
  rw [← BitVec.toNat_inj, BitVec.toNat_setWidth, narrow_add hw, addResult, BitVec.toNat_ofNat]

theorem setWidth_narrow_sub {w : Nat} (hw : w < 32) (tempc : Bool) (a b : BitVec w) :
    (int32 a - (int32 b + tempcInt tempc)).setWidth w = subResult a b tempc := by
  have hd : 2 ^ w ∣ 2 ^ 32 := Nat.pow_dvd_pow 2 (by omega)
  obtain ⟨k, hk⟩ := hd
  have ha := a.isLt
  have hb := b.isLt
  have hc := cin_le_one tempc
  have hk1 : 1 ≤ k := by
    rcases Nat.eq_zero_or_pos k with h | h
    · subst h; simp at hk
    · exact h
  rw [← BitVec.toNat_inj, BitVec.toNat_setWidth, narrow_sub hw, subResult_toNat]
  split
  · have he : 2 ^ 32 + a.toNat - (b.toNat + tempc.toNat) =
        2 ^ w + a.toNat - (b.toNat + tempc.toNat) + 2 ^ w * (k - 1) := by
      obtain ⟨j, rfl⟩ : ∃ j, k = j + 1 := ⟨k - 1, by omega⟩
      rw [Nat.mul_add, Nat.mul_one] at hk
      simp only [Nat.add_sub_cancel]
      omega
    rw [he, Nat.add_mul_mod_self_left, Nat.mod_eq_of_lt (by omega)]
  · exact Nat.mod_eq_of_lt (by omega)

theorem int32_self (x : BitVec 32) : int32 x = x := BitVec.setWidth_eq x

theorem mask8 (x : BitVec 32) : x &&& 0xff = int32 (x.setWidth 8) := by
  rw [← BitVec.toNat_inj, toNat_int32 _ (by omega), BitVec.toNat_setWidth, BitVec.toNat_and]
  exact Nat.and_two_pow_sub_one_eq_mod x.toNat 8

theorem mask16 (x : BitVec 32) : x &&& 0xffff = int32 (x.setWidth 16) := by
  rw [← BitVec.toNat_inj, toNat_int32 _ (by omega), BitVec.toNat_setWidth, BitVec.toNat_and]
  exact Nat.and_two_pow_sub_one_eq_mod x.toNat 16

/-- A 32-bit sum is the result as it stands. -/
theorem add32 (tempc : Bool) (a b : BitVec 32) :
    a + b + tempcInt tempc = addResult a b tempc := by
  rw [← BitVec.toNat_inj, BitVec.toNat_add, BitVec.toNat_add, toNat_tempcInt, addResult,
    BitVec.toNat_ofNat, Nat.mod_add_mod]

theorem sub32 (tempc : Bool) (a b : BitVec 32) :
    a - (b + tempcInt tempc) = subResult a b tempc := by
  rw [subResult]
  congr 1
  rw [← BitVec.toNat_inj, BitVec.toNat_add, toNat_tempcInt, BitVec.toNat_ofNat]

/-! ## The flags of a result -/

/-- The lazy test for overflow after an addition, at the sign bit. -/
theorem lazy_add_overflow {w : Nat} (hw : 0 < w) (h32 : w ≤ 32) (a b : BitVec w) (tempc : Bool) :
    (!(int32 a ^^^ int32 b).getLsbD (w - 1) &&
      (int32 a ^^^ int32 (addResult a b tempc)).getLsbD (w - 1)) = (addFlags a b tempc).o := by
  rw [add_overflow hw]
  simp only [BitVec.getLsbD_xor, int32_msb _ h32]

theorem lazy_sub_overflow {w : Nat} (hw : 0 < w) (h32 : w ≤ 32) (a b : BitVec w) (tempc : Bool) :
    ((int32 a ^^^ int32 b) &&& (int32 a ^^^ int32 (subResult a b tempc))).getLsbD (w - 1) =
      (subFlags a b tempc).o := by
  rw [sub_overflow hw]
  simp only [BitVec.getLsbD_and, BitVec.getLsbD_xor, int32_msb _ h32]

/-! ## The carries, recovered from the result -/

theorem int32_lt {w : Nat} (h32 : w ≤ 32) (x y : BitVec w) :
    (int32 x < int32 y) ↔ x.toNat < y.toNat := by
  rw [BitVec.lt_def, toNat_int32 x h32, toNat_int32 y h32]

theorem digit_lt {w : Nat} (h32 : w ≤ 32) (x y : BitVec w) :
    (int32 x &&& 0xf < int32 y &&& 0xf) ↔ x.toNat % 16 < y.toNat % 16 := by
  rw [BitVec.lt_def, low_digit, low_digit, toNat_int32 x h32, toNat_int32 y h32]

theorem digit_eq {w : Nat} (h32 : w ≤ 32) (x y : BitVec w) :
    (int32 x &&& 0xf = int32 y &&& 0xf) ↔ x.toNat % 16 = y.toNat % 16 := by
  rw [← BitVec.toNat_inj, low_digit, low_digit, toNat_int32 x h32, toNat_int32 y h32]

theorem eq_allOnes {w : Nat} (b : BitVec w) : b = BitVec.allOnes w ↔ b.toNat + 1 = 2 ^ w := by
  rw [← BitVec.toNat_inj, BitVec.toNat_allOnes]
  have := Nat.two_pow_pos w
  omega

/-- `CF_SET` after `setadc`: the result is below the first operand, or equal to
it with a second operand of all ones. -/
theorem lazy_add_carry {w : Nat} (hw : 0 < w) (h32 : w ≤ 32) (a b : BitVec w) (tempc : Bool) :
    (decide (int32 (addResult a b tempc) < int32 a) ||
      (int32 (addResult a b tempc) == int32 a && int32 b == int32 (BitVec.allOnes w))) =
      (addFlags a b tempc).c := by
  have ha := a.isLt
  have hb := b.isLt
  have hc := cin_le_one tempc
  have hr := addResult_toNat a b tempc
  have h2 : 2 ^ 1 ≤ 2 ^ w := Nat.pow_le_pow_right (by decide : 0 < 2) hw
  rw [Bool.eq_iff_iff]
  simp only [addFlags, Bool.or_eq_true, Bool.and_eq_true, decide_eq_true_eq, beq_iff_eq,
    int32_lt h32, int32_inj _ _ h32, eq_allOnes]
  rw [← BitVec.toNat_inj]
  split at hr <;> omega

/-- `CF_SET` after `setsbc`: the first operand is below the second, or equal to
it with a result that is not zero. -/
theorem lazy_sub_borrow {w : Nat} (hw : 0 < w) (h32 : w ≤ 32) (a b : BitVec w) (tempc : Bool) :
    (decide (int32 a < int32 b) || (int32 a == int32 b && int32 (subResult a b tempc) != 0)) =
      (subFlags a b tempc).c := by
  have ha := a.isLt
  have hb := b.isLt
  have hc := cin_le_one tempc
  have hr := subResult_toNat a b tempc
  have h2 : 2 ^ 1 ≤ 2 ^ w := Nat.pow_le_pow_right (by decide : 0 < 2) hw
  rw [Bool.eq_iff_iff]
  simp only [subFlags, Bool.or_eq_true, Bool.and_eq_true, decide_eq_true_eq, beq_iff_eq,
    bne_iff_ne, ne_eq, int32_lt h32, int32_inj _ _ h32, int32_eq_zero _ h32]
  rw [← BitVec.toNat_inj, ← BitVec.toNat_inj, BitVec.ofNat_eq_ofNat, BitVec.toNat_zero]
  split at hr <;> omega

/-- The additions whose auxiliary carry the lazy build loses: the low digit of
the second operand and the carry in make 16, and the operand is not all ones. -/
def losesAuxCarry {w : Nat} (b : BitVec w) (tempc : Bool) : Bool :=
  tempc && b.toNat % 16 == 15 && b != BitVec.allOnes w

/-- `AF_SET` after `setadc`. -/
theorem lazy_add_aux {w : Nat} (h4 : 4 ≤ w) (h32 : w ≤ 32) (a b : BitVec w) (tempc : Bool) :
    (decide (int32 (addResult a b tempc) &&& 0xf < int32 a &&& 0xf) ||
      ((int32 (addResult a b tempc) &&& 0xf) == (int32 a &&& 0xf) &&
        int32 b == int32 (BitVec.allOnes w))) =
      ((addFlags a b tempc).a && !losesAuxCarry b tempc) := by
  have ha := a.isLt
  have hb := b.isLt
  have hr := addResult_toNat a b tempc
  obtain ⟨k, hk⟩ : ∃ k, 2 ^ w = 16 * k := Nat.pow_dvd_pow 2 h4
  rw [Bool.eq_iff_iff]
  simp only [addFlags, losesAuxCarry, Bool.or_eq_true, Bool.and_eq_true, decide_eq_true_eq,
    beq_iff_eq, Bool.not_eq_true', Bool.and_eq_false_iff, bne_eq_false_iff_eq, beq_eq_false_iff_ne,
    digit_lt h32, digit_eq h32, int32_inj _ _ h32, eq_allOnes]
  cases tempc <;> simp only [Bool.toNat_false, Bool.toNat_true, true_or, and_true,
    Bool.true_eq_false, false_or] at hr ⊢ <;> split at hr <;> omega

/-- `AF_SET` after `setsbc`. -/
theorem lazy_sub_aux {w : Nat} (h4 : 4 ≤ w) (h32 : w ≤ 32) (a b : BitVec w) (tempc : Bool) :
    (decide (int32 a &&& 0xf < int32 b &&& 0xf) ||
      ((int32 a &&& 0xf) == (int32 b &&& 0xf) && (int32 (subResult a b tempc) &&& 0xf) != 0)) =
      (subFlags a b tempc).a := by
  have ha := a.isLt
  have hb := b.isLt
  have hc := cin_le_one tempc
  have hr := subResult_toNat a b tempc
  have hz : (int32 (subResult a b tempc) &&& 0xf = 0) ↔ (subResult a b tempc).toNat % 16 = 0 := by
    rw [← BitVec.toNat_inj, low_digit, toNat_int32 _ h32]; rfl
  obtain ⟨k, hk⟩ : ∃ k, 2 ^ w = 16 * k := Nat.pow_dvd_pow 2 h4
  rw [Bool.eq_iff_iff]
  simp only [subFlags, Bool.or_eq_true, Bool.and_eq_true, decide_eq_true_eq, beq_iff_eq,
    bne_iff_ne, ne_eq, digit_lt h32, digit_eq h32, hz]
  split at hr <;> omega

/-! ## The lazy build -/

/-- What the lazy build shows after an addition with carry. -/
def lazyAddFlags {w : Nat} (a b : BitVec w) (tempc : Bool) : ArithFlags :=
  { addFlags a b tempc with a := (addFlags a b tempc).a && !losesAuxCarry b tempc }

/-- The six readings of a lazy addition, for any width. -/
theorem lazy_add_reads {w : Nat} (h4 : 4 ≤ w) (h32 : w ≤ 32) (a b : BitVec w) (tempc : Bool) :
    let r := addResult a b tempc
    (⟨decide (int32 r < int32 a) || (int32 r == int32 a && int32 b == int32 (BitVec.allOnes w)),
      evenParity r,
      decide (int32 r &&& 0xf < int32 a &&& 0xf) ||
        ((int32 r &&& 0xf) == (int32 a &&& 0xf) && int32 b == int32 (BitVec.allOnes w)),
      decide (r = 0), (int32 r).getLsbD (w - 1),
      !(int32 a ^^^ int32 b).getLsbD (w - 1) && (int32 a ^^^ int32 r).getLsbD (w - 1)⟩
        : ArithFlags) = lazyAddFlags a b tempc := by
  intro r
  rw [lazy_add_carry (by omega) h32, lazy_add_aux h4 h32, int32_msb _ h32,
    lazy_add_overflow (by omega) h32]
  rfl

/-- The six readings of a lazy subtraction. -/
theorem lazy_sub_reads {w : Nat} (h4 : 4 ≤ w) (h32 : w ≤ 32) (a b : BitVec w) (tempc : Bool) :
    let r := subResult a b tempc
    (⟨decide (int32 a < int32 b) || (int32 a == int32 b && int32 r != 0),
      evenParity r,
      decide (int32 a &&& 0xf < int32 b &&& 0xf) ||
        ((int32 a &&& 0xf) == (int32 b &&& 0xf) && (int32 r &&& 0xf) != 0),
      decide (r = 0), (int32 r).getLsbD (w - 1),
      ((int32 a ^^^ int32 b) &&& (int32 a ^^^ int32 r)).getLsbD (w - 1)⟩
        : ArithFlags) = subFlags a b tempc := by
  intro r
  rw [lazy_sub_borrow (by omega) h32, lazy_sub_aux h4 h32, int32_msb _ h32,
    lazy_sub_overflow (by omega) h32]
  rfl

theorem observe_setadc8 (tempc : Bool) (a b : BitVec 8) (st : CpuState) :
    observe (setadc8 tempc a b st) = lazyAddFlags a b tempc := by
  have hr : (int32 a + int32 b + tempcInt tempc) &&& 0xff = int32 (addResult a b tempc) := by
    rw [mask8, setWidth_narrow_add (by omega)]
  simp only [observe, setadc8, lazySet, CF_SET, PF_SET, AF_SET, ZF_SET, NF_SET, VF_SET, hr,
    isSet_sign8, parity_flag, zero_flag _ (show 8 ≤ 32 by omega)]
  exact lazy_add_reads (by omega) (by omega) a b tempc

theorem observe_setadc16 (tempc : Bool) (a b : BitVec 16) (st : CpuState) :
    observe (setadc16 tempc a b st) = lazyAddFlags a b tempc := by
  have hr : (int32 a + int32 b + tempcInt tempc) &&& 0xffff = int32 (addResult a b tempc) := by
    rw [mask16, setWidth_narrow_add (by omega)]
  simp only [observe, setadc16, lazySet, CF_SET, PF_SET, AF_SET, ZF_SET, NF_SET, VF_SET, hr,
    isSet_sign16, parity_flag, zero_flag _ (show 16 ≤ 32 by omega)]
  exact lazy_add_reads (by omega) (by omega) a b tempc

theorem observe_setadc32 (tempc : Bool) (a b : BitVec 32) (st : CpuState) :
    observe (setadc32 tempc a b st) = lazyAddFlags a b tempc := by
  have hp := parity_flag (addResult a b tempc)
  have hz := zero_flag (addResult a b tempc) (by omega)
  have h := lazy_add_reads (by omega) (by omega) a b tempc
  simp only [int32_self] at hp hz h
  simp only [observe, setadc32, lazySet, CF_SET, PF_SET, AF_SET, ZF_SET, NF_SET, VF_SET, add32,
    isSet_sign32, hp, hz]
  exact h

theorem observe_setsbc8 (tempc : Bool) (a b : BitVec 8) (st : CpuState) :
    observe (setsbc8 tempc a b st) = subFlags a b tempc := by
  have hr : (int32 a - (int32 b + tempcInt tempc)) &&& 0xff = int32 (subResult a b tempc) := by
    rw [mask8, setWidth_narrow_sub (by omega)]
  simp only [observe, setsbc8, lazySet, CF_SET, PF_SET, AF_SET, ZF_SET, NF_SET, VF_SET, hr,
    isSet_sign8, parity_flag, zero_flag _ (show 8 ≤ 32 by omega)]
  exact lazy_sub_reads (by omega) (by omega) a b tempc

theorem observe_setsbc16 (tempc : Bool) (a b : BitVec 16) (st : CpuState) :
    observe (setsbc16 tempc a b st) = subFlags a b tempc := by
  have hr : (int32 a - (int32 b + tempcInt tempc)) &&& 0xffff = int32 (subResult a b tempc) := by
    rw [mask16, setWidth_narrow_sub (by omega)]
  simp only [observe, setsbc16, lazySet, CF_SET, PF_SET, AF_SET, ZF_SET, NF_SET, VF_SET, hr,
    isSet_sign16, parity_flag, zero_flag _ (show 16 ≤ 32 by omega)]
  exact lazy_sub_reads (by omega) (by omega) a b tempc

theorem observe_setsbc32 (tempc : Bool) (a b : BitVec 32) (st : CpuState) :
    observe (setsbc32 tempc a b st) = subFlags a b tempc := by
  have hp := parity_flag (subResult a b tempc)
  have hz := zero_flag (subResult a b tempc) (by omega)
  have h := lazy_sub_reads (by omega) (by omega) a b tempc
  simp only [int32_self] at hp hz h
  simp only [observe, setsbc32, lazySet, CF_SET, PF_SET, AF_SET, ZF_SET, NF_SET, VF_SET, sub32,
    isSet_sign32, hp, hz]
  exact h

/-! ## The eager build -/

/-- A table entry has no bit outside P, Z and N that is an arithmetic flag. -/
def OnlyPZN (m : BitVec 16) : Prop :=
  m.getLsbD 0 = false ∧ m.getLsbD 4 = false ∧ m.getLsbD 11 = false

theorem onlyPZN_znptable8 (c : BitVec 8) : OnlyPZN (znptable8 c) := by
  unfold OnlyPZN znptable8
  split <;> split <;> split <;> simp [Z_FLAG, N_FLAG, P_FLAG]

theorem onlyPZN_znptable16 (c : BitVec 16) : OnlyPZN (znptable16 c) := by
  unfold OnlyPZN znptable16
  split <;> split <;> split <;> simp [Z_FLAG, N_FLAG, P_FLAG]

/-- The flags word of the eager functions: the table entry, then the carry, the
overflow and the auxiliary carry. -/
theorem stored_eager (flags m : BitVec 16) (c o a : Bool) (h : OnlyPZN m) :
    stored (orIf (orIf (orIf (flags &&& ~~~0x8D5 ||| m) c C_FLAG) o V_FLAG) a A_FLAG) =
      ⟨c, m.getLsbD 2, a, m.getLsbD 6, m.getLsbD 7, o⟩ := by
  obtain ⟨h0, h4, h11⟩ := h
  simp only [stored, isSet_C_FLAG, isSet_P_FLAG, isSet_A_FLAG, isSet_Z_FLAG,
    isSet_N_FLAG, isSet_V_FLAG, BitVec.getLsbD_or, BitVec.getLsbD_and, getLsbD_orIf, h0, h4, h11]
  simp [C_FLAG, A_FLAG, V_FLAG]

theorem toNat_digit {w : Nat} (h32 : w ≤ 32) (x : BitVec w) :
    (int32 x &&& 0xf).toNat = x.toNat % 16 := by
  rw [low_digit, toNat_int32 x h32]

theorem eager_add_aux {w : Nat} (h32 : w ≤ 32) (a b : BitVec w) (tempc : Bool) :
    ((int32 a &&& 0xf) + (int32 b &&& 0xf) + tempcInt tempc).getLsbD 4 =
      (addFlags a b tempc).a := by
  have hc := cin_le_one tempc
  rw [getLsbD_eq_decide, BitVec.toNat_add, BitVec.toNat_add, toNat_digit h32, toNat_digit h32,
    toNat_tempcInt, Nat.mod_add_mod, Nat.mod_eq_of_lt (by omega)]
  simp only [addFlags, decide_eq_decide]
  omega

theorem eager_sub_aux {w : Nat} (h32 : w ≤ 32) (a b : BitVec w) (tempc : Bool) :
    ((int32 a &&& 0xf) - ((int32 b &&& 0xf) + tempcInt tempc)).getLsbD 4 =
      (subFlags a b tempc).a := by
  have hc := cin_le_one tempc
  have hb : ((int32 b &&& 0xf) + tempcInt tempc).toNat = b.toNat % 16 + tempc.toNat := by
    rw [BitVec.toNat_add, toNat_digit h32, toNat_tempcInt, Nat.mod_eq_of_lt (by omega)]
  rw [getLsbD_eq_decide, BitVec.toNat_sub, hb, toNat_digit h32]
  simp only [subFlags, decide_eq_decide]
  omega

/-- The carry of a narrow sum is the bit above the operands. -/
theorem eager_add_carry {w : Nat} (hw : w < 32) (a b : BitVec w) (tempc : Bool) :
    (int32 a + int32 b + tempcInt tempc).getLsbD w = (addFlags a b tempc).c := by
  have hp := Nat.two_pow_pos w
  have ha := a.isLt
  have hb := b.isLt
  have hc := cin_le_one tempc
  rw [getLsbD_eq_decide, narrow_add hw]
  simp only [addFlags, decide_eq_decide]
  have hq : (a.toNat + b.toNat + tempc.toNat) / 2 ^ w =
      if 2 ^ w ≤ a.toNat + b.toNat + tempc.toNat then 1 else 0 := by
    split
    · exact Nat.div_eq_of_lt_le (by omega) (by omega)
    · exact Nat.div_eq_of_lt (by omega)
  rw [hq]
  split <;> simp_all

theorem eager_sub_borrow {w : Nat} (hw : w < 32) (a b : BitVec w) (tempc : Bool) :
    (int32 a - (int32 b + tempcInt tempc)).getLsbD w = (subFlags a b tempc).c := by
  have hp := Nat.two_pow_pos w
  have ha := a.isLt
  have hb := b.isLt
  have hc := cin_le_one tempc
  have h32 : 2 ^ 32 = 2 ^ w * 2 * 2 ^ (31 - w) := by
    rw [← Nat.pow_succ, ← Nat.pow_add]; congr 1; omega
  rw [getLsbD_eq_decide, narrow_sub hw]
  simp only [subFlags, decide_eq_decide]
  split
  · -- A wrapped difference is just below `2 ^ 32`, so the bit is one.
    rename_i hlt
    have hk : 2 ^ w * 2 * 2 ^ (31 - w) = 2 ^ w * (2 * (2 ^ (31 - w) - 1) + 1) + 2 ^ w := by
      have := Nat.two_pow_pos (31 - w)
      generalize 2 ^ (31 - w) = k at *
      obtain ⟨j, rfl⟩ : ∃ j, k = j + 1 := ⟨k - 1, by omega⟩
      rw [Nat.add_sub_cancel]; ring
    have hq : (2 ^ 32 + a.toNat - (b.toNat + tempc.toNat)) / 2 ^ w =
        2 * (2 ^ (31 - w) - 1) + 1 := by
      apply Nat.div_eq_of_lt_le
      · rw [Nat.mul_comm]; omega
      · rw [Nat.add_mul, Nat.mul_comm]; omega
    rw [hq]
    simp only [hlt, iff_true]
    omega
  · rename_i hge
    rw [Nat.div_eq_of_lt (by omega)]
    simp only [hge, iff_false]
    omega

/-- The sign bit of the result, inside a wider word. -/
theorem wide_sign {v w : Nat} (h : 0 < w) (x : BitVec v) :
    x.getLsbD (w - 1) = (x.setWidth w).msb := by
  rw [BitVec.msb_eq_getLsbD_last, BitVec.getLsbD_setWidth,
    decide_eq_true (show w - 1 < w by omega), Bool.true_and]

theorem eager_add_overflow {w : Nat} (hw : 0 < w) (h32 : w < 32) (a b : BitVec w) (tempc : Bool) :
    (!(int32 a ^^^ int32 b).getLsbD (w - 1) &&
      (int32 a ^^^ (int32 a + int32 b + tempcInt tempc)).getLsbD (w - 1)) =
      (addFlags a b tempc).o := by
  rw [add_overflow hw]
  simp only [BitVec.getLsbD_xor, int32_msb _ (Nat.le_of_lt h32),
    wide_sign hw (int32 a + int32 b + tempcInt tempc), setWidth_narrow_add h32]

theorem eager_sub_overflow {w : Nat} (hw : 0 < w) (h32 : w < 32) (a b : BitVec w) (tempc : Bool) :
    ((int32 a ^^^ int32 b) &&& (int32 a ^^^ (int32 a - (int32 b + tempcInt tempc)))).getLsbD
      (w - 1) = (subFlags a b tempc).o := by
  rw [sub_overflow hw]
  simp only [BitVec.getLsbD_and, BitVec.getLsbD_xor, int32_msb _ (Nat.le_of_lt h32),
    wide_sign hw (int32 a - (int32 b + tempcInt tempc)), setWidth_narrow_sub h32]

/-- The P, Z and N of a 32-bit result, which has no table of its own. -/
theorem znp32_bits (c : BitVec 32) :
    let m := (if isSet (c &&& 0x80000000) then N_FLAG else if c = 0 then Z_FLAG else 0) |||
      (znptable8 (c.setWidth 8) &&& P_FLAG)
    OnlyPZN m ∧ m.getLsbD 2 = evenParity c ∧ m.getLsbD 6 = decide (c = 0) ∧
      m.getLsbD 7 = c.msb := by
  intro m
  have hp : (znptable8 (c.setWidth 8)).getLsbD 2 = evenParity c := by
    have := parity_flag c
    rwa [isSet_P_FLAG, int32_self] at this
  have hn : isSet (c &&& 0x80000000) = c.msb := by
    rw [isSet_sign32, BitVec.msb_eq_getLsbD_last]
  have hz : c.msb = true → c ≠ 0 := by
    rintro h rfl
    simp at h
  unfold m
  rw [hn]
  unfold OnlyPZN
  simp only [BitVec.getLsbD_or, BitVec.getLsbD_and, hp]
  rcases hm : c.msb with _ | _
  · by_cases h0 : c = 0
    · simp [h0, Z_FLAG, P_FLAG]
    · have h0 : c ≠ 0#32 := h0
      simp [h0, P_FLAG]
  · have h0 : c ≠ 0#32 := hz hm
    simp [h0, N_FLAG, P_FLAG]

/-- The low bits of a word kept in 16 bits. -/
theorem getLsbD_keep16 (x : BitVec 32) (i : Nat) (hi : i < 16) :
    (int32 (x.setWidth 16)).getLsbD i = x.getLsbD i := by
  simp [int32, hi, show i < 32 by omega]

theorem stored_eager_setadc8 (tempc : Bool) (a b : BitVec 8) (st : CpuState) :
    stored (eager.setadc8 tempc a b st).flags = addFlags a b tempc := by
  have hr : ((int32 a + int32 b + tempcInt tempc).setWidth 16).setWidth 8 =
      addResult a b tempc := by
    rw [BitVec.setWidth_setWidth_of_le _ (by omega), setWidth_narrow_add (by omega)]
  obtain ⟨hp, hz, hn⟩ := znptable8_bits (addResult a b tempc)
  have ho := eager_add_overflow (by omega) (by omega) a b tempc
  have hcf := eager_add_carry (by omega) a b tempc
  simp only [eager.setadc8, hr]
  rw [stored_eager _ _ _ _ _ (onlyPZN_znptable8 _), hp, hz, hn]
  simp only [isSet_sign8, isSet_carry4, isSet_carry8, eager_add_aux (show 8 ≤ 32 by omega),
    BitVec.getLsbD_xor] at ho ⊢
  rw [getLsbD_keep16 _ 8 (by omega), getLsbD_keep16 _ 7 (by omega), hcf, ho]
  rfl

theorem stored_eager_setadc16 (tempc : Bool) (a b : BitVec 16) (st : CpuState) :
    stored (eager.setadc16 tempc a b st).flags = addFlags a b tempc := by
  have hr := setWidth_narrow_add (show 16 < 32 by omega) tempc a b
  obtain ⟨hp, hz, hn⟩ := znptable16_bits (addResult a b tempc)
  have ho := eager_add_overflow (by omega) (by omega) a b tempc
  have hcf := eager_add_carry (by omega) a b tempc
  simp only [eager.setadc16, hr]
  rw [stored_eager _ _ _ _ _ (onlyPZN_znptable16 _), hp, hz, hn]
  simp only [isSet_sign16, isSet_carry4, isSet_carry16, eager_add_aux (show 16 ≤ 32 by omega)]
  rw [hcf, ho]
  rfl

theorem stored_eager_setadc32 (tempc : Bool) (a b : BitVec 32) (st : CpuState) :
    stored (eager.setadc32 tempc a b st).flags = addFlags a b tempc := by
  obtain ⟨hm, hp, hz, hn⟩ := znp32_bits (addResult a b tempc)
  have haf := eager_add_aux (show 32 ≤ 32 by omega) a b tempc
  have ho := lazy_add_overflow (by omega) (by omega) a b tempc
  simp only [int32_self, add32] at haf ho
  have hcf : (decide (addResult a b tempc < a) || (addResult a b tempc == a && tempc)) =
      (addFlags a b tempc).c := by
    have ha := a.isLt
    have hb := b.isLt
    have hr := addResult_toNat a b tempc
    rw [Bool.eq_iff_iff]
    simp only [addFlags, Bool.or_eq_true, Bool.and_eq_true, decide_eq_true_eq, beq_iff_eq,
      BitVec.lt_def]
    rw [← BitVec.toNat_inj]
    cases tempc <;> simp only [Bool.toNat_false, Bool.toNat_true] at hr ⊢ <;>
      split at hr <;> simp <;> omega
  simp only [eager.setadc32, add32, BitVec.or_assoc]
  rw [stored_eager _ _ _ _ _ hm, hp, hz, hn, hcf]
  simp only [isSet_sign32, isSet_carry4, haf]
  rw [ho]
  rfl

theorem stored_eager_setsbc8 (tempc : Bool) (a b : BitVec 8) (st : CpuState) :
    stored (eager.setsbc8 tempc a b st).flags = subFlags a b tempc := by
  have hr : ((int32 a - (int32 b + tempcInt tempc)).setWidth 16).setWidth 8 =
      subResult a b tempc := by
    rw [BitVec.setWidth_setWidth_of_le _ (by omega), setWidth_narrow_sub (by omega)]
  obtain ⟨hp, hz, hn⟩ := znptable8_bits (subResult a b tempc)
  have ho := eager_sub_overflow (by omega) (by omega) a b tempc
  have hcf := eager_sub_borrow (by omega) a b tempc
  simp only [eager.setsbc8, hr]
  rw [stored_eager _ _ _ _ _ (onlyPZN_znptable8 _), hp, hz, hn]
  simp only [isSet_sign8, isSet_carry4, isSet_carry8, eager_sub_aux (show 8 ≤ 32 by omega),
    BitVec.getLsbD_xor, BitVec.getLsbD_and] at ho ⊢
  rw [getLsbD_keep16 _ 8 (by omega), getLsbD_keep16 _ 7 (by omega), hcf, ho]
  rfl

theorem stored_eager_setsbc16 (tempc : Bool) (a b : BitVec 16) (st : CpuState) :
    stored (eager.setsbc16 tempc a b st).flags = subFlags a b tempc := by
  have hr := setWidth_narrow_sub (show 16 < 32 by omega) tempc a b
  obtain ⟨-, hz, hn⟩ := znptable16_bits (subResult a b tempc)
  have ho := eager_sub_overflow (by omega) (by omega) a b tempc
  have hcf := eager_sub_borrow (by omega) a b tempc
  have h8 : (int32 a - (int32 b + tempcInt tempc)).setWidth 8 =
      (int32 (subResult a b tempc)).setWidth 8 := by
    rw [← hr]
    apply BitVec.eq_of_getLsbD_eq
    intro i hi
    simp only [BitVec.getLsbD_setWidth, decide_eq_true hi, Bool.true_and]
    exact (getLsbD_keep16 _ i (by omega)).symm
  have hp := parity_flag (subResult a b tempc)
  rw [isSet_P_FLAG] at hp
  -- P comes from the byte table, Z and N from the other one.
  let m := (znptable16 (subResult a b tempc) &&& ~~~4) |||
    (znptable8 ((int32 (subResult a b tempc)).setWidth 8) &&& 4)
  have hm : OnlyPZN m ∧ m.getLsbD 2 = evenParity (subResult a b tempc) ∧
      m.getLsbD 6 = decide (subResult a b tempc = 0) ∧
      m.getLsbD 7 = (subResult a b tempc).msb := by
    obtain ⟨h0, h4, h11⟩ := onlyPZN_znptable16 (subResult a b tempc)
    unfold m OnlyPZN
    simp only [BitVec.getLsbD_or, BitVec.getLsbD_and, h0, h4, h11, hp, hz, hn]
    simp
  obtain ⟨hm, hp, hz, hn⟩ := hm
  simp only [eager.setsbc16, hr, h8, BitVec.or_assoc]
  rw [stored_eager _ _ _ _ _ hm, hp, hz, hn]
  simp only [isSet_sign16, isSet_carry4, isSet_carry16, eager_sub_aux (show 16 ≤ 32 by omega)]
  rw [hcf, ho]
  rfl

theorem stored_eager_setsbc32 (tempc : Bool) (a b : BitVec 32) (st : CpuState) :
    stored (eager.setsbc32 tempc a b st).flags = subFlags a b tempc := by
  obtain ⟨hm, hp, hz, hn⟩ := znp32_bits (subResult a b tempc)
  have haf := eager_sub_aux (show 32 ≤ 32 by omega) a b tempc
  have ho := lazy_sub_overflow (by omega) (by omega) a b tempc
  simp only [int32_self, sub32] at haf ho
  have hcf : (decide (a < subResult a b tempc) || (subResult a b tempc == a && tempc)) =
      (subFlags a b tempc).c := by
    have ha := a.isLt
    have hb := b.isLt
    have hr := subResult_toNat a b tempc
    rw [Bool.eq_iff_iff]
    simp only [subFlags, Bool.or_eq_true, Bool.and_eq_true, decide_eq_true_eq, beq_iff_eq,
      BitVec.lt_def]
    rw [← BitVec.toNat_inj]
    cases tempc <;> simp only [Bool.toNat_false, Bool.toNat_true] at hr ⊢ <;>
      split at hr <;> simp <;> omega
  simp only [eager.setsbc32, sub32, BitVec.or_assoc]
  rw [stored_eager _ _ _ _ _ hm, hp, hz, hn, hcf]
  simp only [isSet_sign32, isSet_carry4, haf]
  rw [ho]
  rfl

/-! ## The two builds side by side -/

inductive CarryOp where
  | adc
  | sbc
deriving DecidableEq, Repr

inductive Width where
  | w8
  | w16
  | w32
deriving DecidableEq, Repr

@[reducible] def Width.bits : Width → Nat
  | .w8 => 8
  | .w16 => 16
  | .w32 => 32

def lazyCarry (k : CarryOp) (n : Width) (tempc : Bool) (a b : BitVec n.bits) :
    CpuState → CpuState :=
  match k, n with
  | .adc, .w8 => setadc8 tempc a b
  | .adc, .w16 => setadc16 tempc a b
  | .adc, .w32 => setadc32 tempc a b
  | .sbc, .w8 => setsbc8 tempc a b
  | .sbc, .w16 => setsbc16 tempc a b
  | .sbc, .w32 => setsbc32 tempc a b

def eagerCarry (k : CarryOp) (n : Width) (tempc : Bool) (a b : BitVec n.bits) :
    CpuState → CpuState :=
  match k, n with
  | .adc, .w8 => eager.setadc8 tempc a b
  | .adc, .w16 => eager.setadc16 tempc a b
  | .adc, .w32 => eager.setadc32 tempc a b
  | .sbc, .w8 => eager.setsbc8 tempc a b
  | .sbc, .w16 => eager.setsbc16 tempc a b
  | .sbc, .w32 => eager.setsbc32 tempc a b

/-- The flags that the processor manual gives. -/
def manualFlags {w : Nat} (k : CarryOp) (a b : BitVec w) (tempc : Bool) : ArithFlags :=
  match k with
  | .adc => addFlags a b tempc
  | .sbc => subFlags a b tempc

theorem stored_eagerCarry (k : CarryOp) (n : Width) (tempc : Bool) (a b : BitVec n.bits)
    (st : CpuState) : stored (eagerCarry k n tempc a b st).flags = manualFlags k a b tempc := by
  cases k with
  | adc =>
    cases n with
    | w8 => exact stored_eager_setadc8 tempc a b st
    | w16 => exact stored_eager_setadc16 tempc a b st
    | w32 => exact stored_eager_setadc32 tempc a b st
  | sbc =>
    cases n with
    | w8 => exact stored_eager_setsbc8 tempc a b st
    | w16 => exact stored_eager_setsbc16 tempc a b st
    | w32 => exact stored_eager_setsbc32 tempc a b st

theorem observe_lazy_adc (n : Width) (tempc : Bool) (a b : BitVec n.bits) (st : CpuState) :
    observe (lazyCarry .adc n tempc a b st) = lazyAddFlags a b tempc := by
  cases n with
  | w8 => exact observe_setadc8 tempc a b st
  | w16 => exact observe_setadc16 tempc a b st
  | w32 => exact observe_setadc32 tempc a b st

theorem observe_lazy_sbc (n : Width) (tempc : Bool) (a b : BitVec n.bits) (st : CpuState) :
    observe (lazyCarry .sbc n tempc a b st) = subFlags a b tempc := by
  cases n with
  | w8 => exact observe_setsbc8 tempc a b st
  | w16 => exact observe_setsbc16 tempc a b st
  | w32 => exact observe_setsbc32 tempc a b st

/-- Where the lazy build loses the auxiliary carry, the manual sets it. -/
theorem lost_aux_carry {w : Nat} (a b : BitVec w) (tempc : Bool)
    (h : losesAuxCarry b tempc = true) : (addFlags a b tempc).a = true := by
  simp only [losesAuxCarry, Bool.and_eq_true, beq_iff_eq] at h
  obtain ⟨⟨ht, hb⟩, -⟩ := h
  simp only [addFlags, decide_eq_true_eq, ht, Bool.toNat_true]
  omega

theorem lazyAddFlags_eq_iff {w : Nat} (a b : BitVec w) (tempc : Bool) :
    lazyAddFlags a b tempc = addFlags a b tempc ↔ losesAuxCarry b tempc = false := by
  constructor
  · intro h
    by_contra hl
    rw [Bool.not_eq_false] at hl
    have ha := congrArg ArithFlags.a h
    rw [lost_aux_carry a b tempc hl] at ha
    simp [lazyAddFlags, hl] at ha
  · intro h
    simp [lazyAddFlags, h]

/-! ## The law -/

/-- The two builds leave the same arithmetic flags, those of the manual,
whatever the state was before. -/
def CarryAgree (k : CarryOp) (n : Width) (tempc : Bool) (a b : BitVec n.bits) : Prop :=
  ∀ st st' : CpuState,
    stored (flags_rebuild (lazyCarry k n tempc a b st)).flags =
        stored (eagerCarry k n tempc a b st').flags ∧
      stored (eagerCarry k n tempc a b st').flags = manualFlags k a b tempc

/-- The builds agree on all but the additions of a carry to an operand whose low
digit is full and that is not all ones. -/
theorem the_builds_agree_unless_the_digit_is_full (k : CarryOp) (n : Width) (tempc : Bool)
    (a b : BitVec n.bits) :
    CarryAgree k n tempc a b ↔ ¬(k = .adc ∧ losesAuxCarry b tempc = true) := by
  unfold CarryAgree
  simp only [stored_flags_rebuild, stored_eagerCarry, and_true]
  cases k with
  | adc =>
    simp only [observe_lazy_adc, manualFlags, lazyAddFlags_eq_iff, true_and, Bool.not_eq_true]
    exact ⟨fun h => h ⟨.FLAGS_UNKNOWN, 0, 0, 0, 0⟩ ⟨.FLAGS_UNKNOWN, 0, 0, 0, 0⟩, fun h _ _ => h⟩
  | sbc => simp [observe_lazy_sbc, manualFlags]

/-- `0x00 + 0x0f` with a carry in: the low digits make 16, and the lazy build
shows no auxiliary carry. -/
theorem adc_of_0f_loses_the_auxiliary_carry : ¬CarryAgree .adc .w8 true 0x00 0x0f := by
  intro h
  have h0 := (h ⟨.FLAGS_UNKNOWN, 0, 0, 0, 0⟩ ⟨.FLAGS_UNKNOWN, 0, 0, 0, 0⟩).1
  exact absurd (congrArg ArithFlags.a h0) (by decide)

end blumach.x86_flags
