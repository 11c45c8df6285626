-- How the flag functions read a word: sign bits, carries, digits and parity of
-- operands of 8, 16 and 32 bits. Both laws of the lazy flags rest on these.
import BluMach.BitFields
import BluMach.Flags

namespace blumach.x86_flags

open arith_flags

/-! ## One bit of a word -/

theorem isSet_twoPow {w : Nat} (x : BitVec w) (i : Nat) :
    isSet (x &&& BitVec.twoPow w i) = x.getLsbD i :=
  bit_fields.and_bit_bne x i

@[simp] theorem isSet_sign8 (x : BitVec 32) : isSet (x &&& 0x80) = x.getLsbD 7 :=
  isSet_twoPow x 7

@[simp] theorem isSet_sign16 (x : BitVec 32) : isSet (x &&& 0x8000) = x.getLsbD 15 :=
  isSet_twoPow x 15

@[simp] theorem isSet_sign32 (x : BitVec 32) : isSet (x &&& 0x80000000) = x.getLsbD 31 :=
  isSet_twoPow x 31

@[simp] theorem isSet_carry4 (x : BitVec 32) : isSet (x &&& 0x10) = x.getLsbD 4 :=
  isSet_twoPow x 4

@[simp] theorem isSet_carry8 (x : BitVec 32) : isSet (x &&& 0x100) = x.getLsbD 8 :=
  isSet_twoPow x 8

@[simp] theorem isSet_carry16 (x : BitVec 32) : isSet (x &&& 0x10000) = x.getLsbD 16 :=
  isSet_twoPow x 16

@[simp] theorem isSet_C_FLAG (f : BitVec 16) : isSet (f &&& C_FLAG) = f.getLsbD 0 :=
  isSet_twoPow f 0

@[simp] theorem isSet_P_FLAG (f : BitVec 16) : isSet (f &&& P_FLAG) = f.getLsbD 2 :=
  isSet_twoPow f 2

@[simp] theorem isSet_A_FLAG (f : BitVec 16) : isSet (f &&& A_FLAG) = f.getLsbD 4 :=
  isSet_twoPow f 4

@[simp] theorem isSet_Z_FLAG (f : BitVec 16) : isSet (f &&& Z_FLAG) = f.getLsbD 6 :=
  isSet_twoPow f 6

@[simp] theorem isSet_N_FLAG (f : BitVec 16) : isSet (f &&& N_FLAG) = f.getLsbD 7 :=
  isSet_twoPow f 7

@[simp] theorem isSet_V_FLAG (f : BitVec 16) : isSet (f &&& V_FLAG) = f.getLsbD 11 :=
  isSet_twoPow f 11

@[simp] theorem getLsbD_orIf (f m : BitVec 16) (b : Bool) (i : Nat) :
    (orIf f b m).getLsbD i = (f.getLsbD i || (b && m.getLsbD i)) := by
  cases b <;> simp [orIf]

/-! ## A flags word built from nothing -/

/-- The flags word after the arithmetic flags are cleared and the flags of `f`
are set, in the order of `flags_rebuild`. -/
def withFlags (flags : BitVec 16) (f : ArithFlags) : BitVec 16 :=
  (flags &&& ~~~0x8d5) |||
    orIf (orIf (orIf (orIf (orIf (orIf 0 f.c C_FLAG) f.p P_FLAG) f.a A_FLAG) f.z Z_FLAG)
      f.s N_FLAG) f.o V_FLAG

@[simp] theorem stored_withFlags (flags : BitVec 16) (f : ArithFlags) :
    stored (withFlags flags f) = f := by
  simp only [stored, withFlags, isSet_C_FLAG, isSet_P_FLAG, isSet_A_FLAG, isSet_Z_FLAG,
    isSet_N_FLAG, isSet_V_FLAG, BitVec.getLsbD_or, BitVec.getLsbD_and, getLsbD_orIf]
  simp [C_FLAG, P_FLAG, A_FLAG, Z_FLAG, N_FLAG, V_FLAG]

theorem flags_rebuild_eq (st : CpuState) (h : st.flags_op ≠ .FLAGS_UNKNOWN) :
    flags_rebuild st =
      { st with flags := withFlags st.flags (observe st), flags_op := .FLAGS_UNKNOWN } := by
  unfold flags_rebuild
  rw [if_pos h]
  rfl

/-- With `FLAGS_UNKNOWN` the flag functions read the stored flags. -/
theorem observe_unknown (st : CpuState) (h : st.flags_op = .FLAGS_UNKNOWN) :
    observe st = stored st.flags := by
  simp only [observe, CF_SET, PF_SET, AF_SET, ZF_SET, NF_SET, VF_SET, h, stored]

/-- A rebuild stores what the flag functions gave before it. -/
theorem stored_flags_rebuild (st : CpuState) : stored (flags_rebuild st).flags = observe st := by
  by_cases h : st.flags_op = .FLAGS_UNKNOWN
  · rw [observe_unknown st h]
    simp [flags_rebuild, h]
  · rw [flags_rebuild_eq st h, stored_withFlags]

theorem flags_rebuild_op (st : CpuState) : (flags_rebuild st).flags_op = .FLAGS_UNKNOWN := by
  unfold flags_rebuild
  split
  · rfl
  · rename_i h
    exact not_not.mp h

theorem observe_flags_rebuild (st : CpuState) : observe (flags_rebuild st) = observe st := by
  rw [observe_unknown _ (flags_rebuild_op st), stored_flags_rebuild]

/-! ## Operands as C ints -/

theorem toNat_int32 {w : Nat} (x : BitVec w) (hw : w ≤ 32) : (int32 x).toNat = x.toNat := by
  have h : 2 ^ w ≤ 2 ^ 32 := Nat.pow_le_pow_right (by omega) hw
  have hx := x.isLt
  rw [int32, BitVec.toNat_setWidth, Nat.mod_eq_of_lt (by omega)]

/-- The sign bit of an operand, read from its int. -/
theorem int32_msb {w : Nat} (x : BitVec w) (hw : w ≤ 32) :
    (int32 x).getLsbD (w - 1) = x.msb := by
  rw [int32, BitVec.getLsbD_setWidth, BitVec.msb_eq_getLsbD_last]
  rcases Nat.eq_zero_or_pos w with h0 | hp
  · subst h0; simp [BitVec.eq_nil x]
  · rw [decide_eq_true (by omega : w - 1 < 32), Bool.true_and]

theorem int32_eq_zero {w : Nat} (x : BitVec w) (hw : w ≤ 32) : (int32 x = 0) ↔ x = 0 := by
  rw [← BitVec.toNat_inj, ← BitVec.toNat_inj, toNat_int32 x hw]
  simp

theorem int32_inj {w : Nat} (x y : BitVec w) (hw : w ≤ 32) : (int32 x = int32 y) ↔ x = y := by
  rw [← BitVec.toNat_inj, ← BitVec.toNat_inj, toNat_int32 x hw, toNat_int32 y hw]

theorem zero_flag {w : Nat} (x : BitVec w) (hw : w ≤ 32) :
    (!isSet (int32 x)) = decide (x = 0) := by
  rw [Bool.eq_iff_iff]
  simpa [isSet] using int32_eq_zero x hw

/-! ## Parity -/

theorem foldl_count (p : Nat → Bool) (l : List Nat) (n : Nat) :
    l.foldl (fun d e => if p e then d + 1 else d) n = n + l.countP p := by
  induction l generalizing n with
  | nil => simp
  | cons e l ih =>
    rw [List.foldl_cons, ih, List.countP_cons]
    split <;> omega

theorem onesOfByte_eq {w : Nat} (c : BitVec w) :
    onesOfByte c = (List.range 8).countP (fun e => c.getLsbD e) := by
  rw [onesOfByte, foldl_count, Nat.zero_add]

theorem parity_bit {w : Nat} (c : BitVec w) :
    (if onesOfByte c % 2 = 1 then (0 : BitVec 16) else P_FLAG).getLsbD 2 = evenParity c := by
  rw [evenParity, ← onesOfByte_eq]
  rcases Nat.mod_two_eq_zero_or_one (onesOfByte c) with h | h <;> rw [h] <;> rfl

/-- The low byte decides the parity. -/
theorem evenParity_congr {v w : Nat} (x : BitVec v) (y : BitVec w)
    (h : ∀ e < 8, x.getLsbD e = y.getLsbD e) : evenParity x = evenParity y := by
  unfold evenParity
  rw [List.countP_congr (q := fun e => y.getLsbD e)]
  intro e he
  rw [h e (by simpa using he)]

theorem evenParity_int32 {w : Nat} (x : BitVec w) :
    evenParity ((int32 x).setWidth 8) = evenParity x := by
  apply evenParity_congr
  intro e he
  rw [int32, BitVec.getLsbD_setWidth, BitVec.getLsbD_setWidth, decide_eq_true he,
    decide_eq_true (by omega : e < 32), Bool.true_and, Bool.true_and]

/-- The P, Z and N bits of a table entry. -/
theorem znptable8_bits (c : BitVec 8) :
    (znptable8 c).getLsbD 2 = evenParity c ∧ (znptable8 c).getLsbD 6 = decide (c = 0) ∧
      (znptable8 c).getLsbD 7 = c.msb := by
  have hn : (c &&& 0x80 ≠ 0) ↔ c.msb = true := by
    have h := isSet_twoPow c 7
    rw [BitVec.msb_eq_getLsbD_last, ← h]
    simp [isSet, show (0x80#8) = BitVec.twoPow 8 7 from rfl]
  have hp := parity_bit c
  refine ⟨?_, ?_, ?_⟩
  · simp only [znptable8, BitVec.getLsbD_or, hp]
    split <;> split <;> simp [Z_FLAG, N_FLAG]
  · simp only [znptable8, BitVec.getLsbD_or]
    split <;> split <;> split <;> simp_all [Z_FLAG, N_FLAG, P_FLAG]
  · simp only [znptable8, BitVec.getLsbD_or, hn]
    split <;> split <;> split <;> simp_all [Z_FLAG, N_FLAG, P_FLAG]

theorem znptable16_bits (c : BitVec 16) :
    (znptable16 c).getLsbD 2 = evenParity c ∧ (znptable16 c).getLsbD 6 = decide (c = 0) ∧
      (znptable16 c).getLsbD 7 = c.msb := by
  have hn : (c &&& 0x8000 ≠ 0) ↔ c.msb = true := by
    have h := isSet_twoPow c 15
    rw [BitVec.msb_eq_getLsbD_last, ← h]
    simp [isSet, show (0x8000#16) = BitVec.twoPow 16 15 from rfl]
  have hp := parity_bit c
  refine ⟨?_, ?_, ?_⟩
  · simp only [znptable16, BitVec.getLsbD_or, hp]
    split <;> split <;> simp [Z_FLAG, N_FLAG]
  · simp only [znptable16, BitVec.getLsbD_or]
    split <;> split <;> split <;> simp_all [Z_FLAG, N_FLAG, P_FLAG]
  · simp only [znptable16, BitVec.getLsbD_or, hn]
    split <;> split <;> split <;> simp_all [Z_FLAG, N_FLAG, P_FLAG]

theorem parity_flag {w : Nat} (x : BitVec w) :
    isSet (znptable8 ((int32 x).setWidth 8) &&& P_FLAG) = evenParity x := by
  rw [isSet_P_FLAG, (znptable8_bits _).1, evenParity_int32]

end blumach.x86_flags
