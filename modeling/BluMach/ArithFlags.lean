-- The arithmetic flags of an addition and of a subtraction with a carry in,
-- as the processor manual defines them, for operands of any width. The
-- lemmas give each flag from the sign bits and the low digits, the way an
-- emulator computes it.
import Mathlib.Data.BitVec

namespace arith_flags

/-- The six arithmetic flags: carry, parity, auxiliary carry, zero, sign and
overflow. -/
structure ArithFlags where
  c : Bool
  p : Bool
  a : Bool
  z : Bool
  s : Bool
  o : Bool
deriving DecidableEq, Repr

attribute [ext] ArithFlags

/-! ## The definitions -/

/-- The low byte has an even number of ones. -/
def evenParity {w : Nat} (x : BitVec w) : Bool :=
  (List.range 8).countP (fun e => x.getLsbD e) % 2 == 0

/-- A signed value that does not fit in `w` bits. -/
def Overflows (w : Nat) (v : Int) : Prop := v < -(2 ^ (w - 1) : Nat) ∨ (2 ^ (w - 1) : Nat) ≤ v

instance (w : Nat) (v : Int) : Decidable (Overflows w v) := by
  unfold Overflows; infer_instance

def addResult {w : Nat} (a b : BitVec w) (cin : Bool) : BitVec w :=
  BitVec.ofNat w (a.toNat + b.toNat + cin.toNat)

def subResult {w : Nat} (a b : BitVec w) (cin : Bool) : BitVec w :=
  a - BitVec.ofNat w (b.toNat + cin.toNat)

/-- The flags of `a + b + cin`. -/
def addFlags {w : Nat} (a b : BitVec w) (cin : Bool) : ArithFlags where
  c := decide (2 ^ w ≤ a.toNat + b.toNat + cin.toNat)
  p := evenParity (addResult a b cin)
  a := decide (16 ≤ a.toNat % 16 + b.toNat % 16 + cin.toNat)
  z := decide (addResult a b cin = 0)
  s := (addResult a b cin).msb
  o := decide (Overflows w (a.toInt + b.toInt + cin.toNat))

/-- The flags of `a - (b + cin)`. -/
def subFlags {w : Nat} (a b : BitVec w) (cin : Bool) : ArithFlags where
  c := decide (a.toNat < b.toNat + cin.toNat)
  p := evenParity (subResult a b cin)
  a := decide (a.toNat % 16 < b.toNat % 16 + cin.toNat)
  z := decide (subResult a b cin = 0)
  s := (subResult a b cin).msb
  o := decide (Overflows w (a.toInt - (b.toInt + cin.toNat)))

/-! ## Results as numbers -/

theorem cin_le_one (cin : Bool) : cin.toNat ≤ 1 := Bool.toNat_le cin

/-- The sum wraps once at most. -/
theorem addResult_toNat {w : Nat} (a b : BitVec w) (cin : Bool) :
    (addResult a b cin).toNat =
      if 2 ^ w ≤ a.toNat + b.toNat + cin.toNat
      then a.toNat + b.toNat + cin.toNat - 2 ^ w
      else a.toNat + b.toNat + cin.toNat := by
  have ha := a.isLt
  have hb := b.isLt
  have hc := cin_le_one cin
  simp only [addResult, BitVec.toNat_ofNat]
  split
  · rw [Nat.mod_eq_sub_mod (by omega), Nat.mod_eq_of_lt (by omega)]
  · exact Nat.mod_eq_of_lt (by omega)

/-- The difference borrows once at most. -/
theorem subResult_toNat {w : Nat} (a b : BitVec w) (cin : Bool) :
    (subResult a b cin).toNat =
      if a.toNat < b.toNat + cin.toNat
      then 2 ^ w + a.toNat - (b.toNat + cin.toNat)
      else a.toNat - (b.toNat + cin.toNat) := by
  have ha := a.isLt
  have hb := b.isLt
  have hc := cin_le_one cin
  simp only [subResult, BitVec.toNat_sub, BitVec.toNat_ofNat]
  rcases Nat.lt_or_ge (b.toNat + cin.toNat) (2 ^ w) with hlt | hge
  · rw [Nat.mod_eq_of_lt hlt]
    split
    · rw [Nat.mod_eq_of_lt (by omega)]; omega
    · rw [show 2 ^ w - (b.toNat + cin.toNat) + a.toNat =
        a.toNat - (b.toNat + cin.toNat) + 2 ^ w by omega, Nat.add_mod_right,
        Nat.mod_eq_of_lt (by omega)]
  · -- The subtrahend is the whole of `2 ^ w`, so the result is `a`.
    have he : b.toNat + cin.toNat = 2 ^ w := by omega
    rw [he, Nat.mod_self, if_pos ha, Nat.sub_zero, Nat.add_mod_left, Nat.mod_eq_of_lt ha]
    omega

/-! ## Signs -/

/-- The sign of a word, and its signed value, by its top half. -/
theorem sign_cases {w : Nat} (hw : 0 < w) (x : BitVec w) :
    2 ^ w = 2 * 2 ^ (w - 1) ∧
      ((x.msb = false ∧ x.toNat < 2 ^ (w - 1) ∧ x.toInt = x.toNat) ∨
        (x.msb = true ∧ 2 ^ (w - 1) ≤ x.toNat ∧ x.toInt = x.toNat - (2 ^ w : Nat))) := by
  have h2 : 2 ^ w = 2 * 2 ^ (w - 1) := by
    rw [← Nat.pow_succ']; congr 1; omega
  refine ⟨h2, ?_⟩
  rw [BitVec.msb_eq_decide, BitVec.toInt_eq_toNat_cond]
  by_cases h : x.toNat < 2 ^ (w - 1)
  · left
    rw [if_pos (by omega)]
    exact ⟨by simpa using h, h, rfl⟩
  · right
    rw [if_neg (by omega)]
    exact ⟨by simpa using h, by omega, rfl⟩

/-- An addition overflows when both operands have one sign and the result has
the other. -/
theorem add_overflow {w : Nat} (hw : 0 < w) (a b : BitVec w) (cin : Bool) :
    (addFlags a b cin).o = (!(a.msb ^^ b.msb) && (a.msb ^^ (addResult a b cin).msb)) := by
  have hc := cin_le_one cin
  have hla := a.isLt
  have hlb := b.isLt
  have hr := addResult_toNat a b cin
  obtain ⟨h2, ha⟩ := sign_cases hw a
  obtain ⟨-, hb⟩ := sign_cases hw b
  obtain ⟨-, hs⟩ := sign_cases hw (addResult a b cin)
  rw [Bool.eq_iff_iff]
  simp only [addFlags, decide_eq_true_eq]
  unfold Overflows
  rcases ha with ⟨ma, la, ia⟩ | ⟨ma, la, ia⟩ <;> rcases hb with ⟨mb, lb, ib⟩ | ⟨mb, lb, ib⟩ <;>
    rcases hs with ⟨ms, ls, -⟩ | ⟨ms, ls, -⟩
  all_goals
    rw [ma, mb, ms, ia, ib]
    generalize 2 ^ (w - 1) = half at *
    generalize 2 ^ w = whole at *
    split at hr
  all_goals
    simp only [Bool.xor_false, Bool.xor_true, Bool.not_false, Bool.not_true, Bool.and_false,
      Bool.and_true, Bool.false_eq_true, iff_false, iff_true]
    omega

/-- A subtraction overflows when the operands have different signs and the
result has not the sign of the first. -/
theorem sub_overflow {w : Nat} (hw : 0 < w) (a b : BitVec w) (cin : Bool) :
    (subFlags a b cin).o = ((a.msb ^^ b.msb) && (a.msb ^^ (subResult a b cin).msb)) := by
  have hc := cin_le_one cin
  have hla := a.isLt
  have hlb := b.isLt
  have hr := subResult_toNat a b cin
  obtain ⟨h2, ha⟩ := sign_cases hw a
  obtain ⟨-, hb⟩ := sign_cases hw b
  obtain ⟨-, hs⟩ := sign_cases hw (subResult a b cin)
  rw [Bool.eq_iff_iff]
  simp only [subFlags, decide_eq_true_eq]
  unfold Overflows
  rcases ha with ⟨ma, la, ia⟩ | ⟨ma, la, ia⟩ <;> rcases hb with ⟨mb, lb, ib⟩ | ⟨mb, lb, ib⟩ <;>
    rcases hs with ⟨ms, ls, -⟩ | ⟨ms, ls, -⟩
  all_goals
    rw [ma, mb, ms, ia, ib]
    generalize 2 ^ (w - 1) = half at *
    generalize 2 ^ w = whole at *
    split at hr
  all_goals
    simp only [Bool.xor_false, Bool.xor_true, Bool.not_false, Bool.not_true, Bool.and_false,
      Bool.and_true, Bool.false_eq_true, iff_false, iff_true]
    omega

/-! ## The carry out of the low digit -/

theorem xor_odd (x y : Nat) :
    (decide (x % 2 = 1) ^^ decide (y % 2 = 1)) = decide ((x + y) % 2 = 1) := by
  rcases Nat.mod_two_eq_zero_or_one x with hx | hx <;>
    rcases Nat.mod_two_eq_zero_or_one y with hy | hy <;>
    simp [Nat.add_mod, hx, hy]

theorem xor_four {w : Nat} (r b a : BitVec w) :
    (r ^^^ b ^^^ a).getLsbD 4 =
      decide ((r.toNat / 16 + b.toNat / 16 + a.toNat / 16) % 2 = 1) := by
  have hbit : ∀ x : BitVec w, x.getLsbD 4 = decide (x.toNat / 16 % 2 = 1) := fun x => by
    rw [BitVec.getLsbD, Nat.testBit_eq_decide_div_mod_eq]
  rw [BitVec.getLsbD_xor, BitVec.getLsbD_xor, hbit, hbit, hbit, xor_odd, xor_odd]

/-- A carry out of the low digit is what the operands do not explain of the next bit. -/
theorem add_aux {w : Nat} (hw : 4 < w) (a b : BitVec w) (cin : Bool) :
    (addResult a b cin ^^^ b ^^^ a).getLsbD 4 = (addFlags a b cin).a := by
  have hr := addResult_toNat a b cin
  have hc := cin_le_one cin
  obtain ⟨k, hk⟩ : 2 ^ 5 ∣ 2 ^ w := Nat.pow_dvd_pow 2 hw
  rw [xor_four]
  simp only [addFlags, decide_eq_decide]
  split at hr <;> omega

theorem sub_aux {w : Nat} (hw : 4 < w) (a b : BitVec w) (cin : Bool) :
    (subResult a b cin ^^^ b ^^^ a).getLsbD 4 = (subFlags a b cin).a := by
  have hr := subResult_toNat a b cin
  have hc := cin_le_one cin
  obtain ⟨k, hk⟩ : 2 ^ 5 ∣ 2 ^ w := Nat.pow_dvd_pow 2 hw
  rw [xor_four]
  simp only [subFlags, decide_eq_decide]
  split at hr <;> omega

/-! ## An operand that has the carry in it -/

/-- The second operand with the carry added to it. -/
def bumped {w : Nat} (b : BitVec w) (cin : Bool) : BitVec w := BitVec.ofNat w (b.toNat + cin.toNat)

theorem bumped_toNat {w : Nat} (b : BitVec w) (cin : Bool) :
    (bumped b cin).toNat =
      if 2 ^ w = b.toNat + cin.toNat then 0 else b.toNat + cin.toNat := by
  have hb := b.isLt
  have hc := cin_le_one cin
  rw [bumped, BitVec.toNat_ofNat]
  split
  · rename_i h
    rw [← h, Nat.mod_self]
  · exact Nat.mod_eq_of_lt (by omega)

theorem add_bumped {w : Nat} (a b : BitVec w) (cin : Bool) :
    a + bumped b cin = addResult a b cin := by
  rw [← BitVec.toNat_inj, BitVec.toNat_add, bumped, addResult, BitVec.toNat_ofNat,
    BitVec.toNat_ofNat, Nat.add_mod_mod, Nat.add_assoc]

/-- The sum wraps when it is below the operand with the carry, or when the carry has made
nothing of all ones. -/
theorem add_carry {w : Nat} (a b : BitVec w) (cin : Bool) :
    (addFlags a b cin).c =
      (cin && decide (bumped b cin = 0) ||
        decide ((addResult a b cin).toNat < (bumped b cin).toNat)) := by
  have ha := a.isLt
  have hb := b.isLt
  have hr := addResult_toNat a b cin
  have hp := bumped_toNat b cin
  have h0 : (0 : BitVec w).toNat = 0 := by simp
  rw [Bool.eq_iff_iff]
  simp only [addFlags, decide_eq_true_eq, Bool.or_eq_true, Bool.and_eq_true, ← BitVec.toNat_inj, h0]
  cases cin <;> simp only [Bool.toNat_false, Bool.toNat_true, Bool.false_eq_true, false_and,
    true_and, false_or] at * <;> split at hr <;> split at hp <;> omega

theorem sub_borrow {w : Nat} (a b : BitVec w) (cin : Bool) :
    (subFlags a b cin).c =
      (cin && decide (bumped b cin = 0) || decide (a.toNat < (bumped b cin).toNat)) := by
  have ha := a.isLt
  have hb := b.isLt
  have hp := bumped_toNat b cin
  have h0 : (0 : BitVec w).toNat = 0 := by simp
  rw [Bool.eq_iff_iff]
  simp only [subFlags, decide_eq_true_eq, Bool.or_eq_true, Bool.and_eq_true, ← BitVec.toNat_inj, h0]
  cases cin <;> simp only [Bool.toNat_false, Bool.toNat_true, Bool.false_eq_true, false_and,
    true_and, false_or] at * <;> split at hp <;> omega

/-- A borrow that is taken from the operand beforehand leaves the difference. -/
theorem subResult_lent {w : Nat} (a b : BitVec w) :
    subResult a (b - 1) true = subResult a b false := by
  unfold subResult
  rw [BitVec.ofNat_add, BitVec.ofNat_toNat, BitVec.setWidth_eq, Bool.toNat_true,
    Bool.toNat_false, Nat.add_zero, BitVec.ofNat_toNat, BitVec.setWidth_eq]
  exact congrArg (a - ·) (BitVec.sub_add_cancel b 1)

/-- A borrow that is taken from the operand beforehand is seen in the flags just when the low
digit of the operand is zero. -/
theorem subFlags_lent {w : Nat} (hw : 4 < w) (a b : BitVec w) :
    subFlags a (b - 1) true = subFlags a b false ↔ b.toNat % 16 ≠ 0 := by
  have ha := a.isLt
  have hb := b.isLt
  have h1 : (1 : BitVec w).toNat = 1 := by
    change (BitVec.ofNat w 1).toNat = 1
    rw [BitVec.toNat_ofNat]
    exact Nat.mod_eq_of_lt (Nat.one_lt_two_pow (by omega))
  obtain ⟨k, hk⟩ : 2 ^ 5 ∣ 2 ^ w := Nat.pow_dvd_pow 2 hw
  have hlent : (b - 1).toNat = if b.toNat = 0 then 2 ^ w - 1 else b.toNat - 1 := by
    rw [BitVec.toNat_sub, h1]
    split
    · rename_i h0
      rw [h0, Nat.add_zero, Nat.mod_eq_of_lt (by omega)]
    · rw [show 2 ^ w - 1 + b.toNat = b.toNat - 1 + 2 ^ w by omega, Nat.add_mod_right,
        Nat.mod_eq_of_lt (by omega)]
  constructor
  · intro h h0
    have hdigit := congrArg ArithFlags.a h
    simp only [subFlags, decide_eq_decide, Bool.toNat_true, Bool.toNat_false] at hdigit
    split at hlent <;> omega
  · intro h
    have hpred : (b - 1).toNat = b.toNat - 1 := by rw [hlent, if_neg (by omega)]
    have hresult := subResult_lent a b
    have hsign : (b - 1).msb = b.msb := by
      obtain ⟨m, hm⟩ : 2 ^ 4 ∣ 2 ^ (w - 1) := Nat.pow_dvd_pow 2 (by omega)
      rw [BitVec.msb_eq_decide, BitVec.msb_eq_decide, hpred, decide_eq_decide]
      omega
    have ho := sub_overflow (by omega) a (b - 1) true
    rw [hsign, hresult, ← sub_overflow (by omega) a b false] at ho
    have hc : (subFlags a (b - 1) true).c = (subFlags a b false).c := by
      simp only [subFlags, decide_eq_decide, hpred, Bool.toNat_true, Bool.toNat_false]
      omega
    have haux : (subFlags a (b - 1) true).a = (subFlags a b false).a := by
      simp only [subFlags, decide_eq_decide, hpred, Bool.toNat_true, Bool.toNat_false]
      omega
    ext1
    · exact hc
    · simp only [subFlags, hresult]
    · exact haux
    · simp only [subFlags, hresult]
    · simp only [subFlags, hresult]
    · exact ho

end arith_flags
