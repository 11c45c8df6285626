-- Whole sequences of flag operations. The lazy state keeps one operation, and
-- only part of the one before it, so each operation here says what it needs of
-- the flags that went before. No sequence loses a flag.
import BluMach.FlagsCarry

namespace blumach.x86_flags

open arith_flags

/-! ## The operations -/

inductive ShiftKind where
  | SHL
  | SHR
  | SAR
deriving DecidableEq, Repr

inductive RotateKind where
  | ROL
  | ROR
deriving DecidableEq, Repr

/-- A shift of none is not a flag operation, and the count is masked to five
bits. -/
def ShiftCount : Type := { c : BitVec 32 // 1 ≤ c.toNat ∧ c.toNat ≤ 31 }

def shiftOp : ShiftKind → Width → FlagsOp
  | .SHL, .w8 => .FLAGS_SHL8
  | .SHL, .w16 => .FLAGS_SHL16
  | .SHL, .w32 => .FLAGS_SHL32
  | .SHR, .w8 => .FLAGS_SHR8
  | .SHR, .w16 => .FLAGS_SHR16
  | .SHR, .w32 => .FLAGS_SHR32
  | .SAR, .w8 => .FLAGS_SAR8
  | .SAR, .w16 => .FLAGS_SAR16
  | .SAR, .w32 => .FLAGS_SAR32

def rotateOp : RotateKind → Width → FlagsOp
  | .ROL, .w8 => .FLAGS_ROL8
  | .ROL, .w16 => .FLAGS_ROL16
  | .ROL, .w32 => .FLAGS_ROL32
  | .ROR, .w8 => .FLAGS_ROR8
  | .ROR, .w16 => .FLAGS_ROR16
  | .ROR, .w32 => .FLAGS_ROR32

inductive Instr where
  | setznp (n : Width) (val : BitVec n.bits)
  | setadd (n : Width) (a b : BitVec n.bits)
  | setsub (n : Width) (a b : BitVec n.bits)
  | setaddnc (n : Width) (a b : BitVec n.bits)
  | setsubnc (n : Width) (a b : BitVec n.bits)
  | shift (k : ShiftKind) (n : Width) (orig : BitVec 32) (count : ShiftCount) (res : BitVec 32)
  | rotate (k : RotateKind) (n : Width) (res : BitVec 32)

/-- The C function of each operation. A rotate rebuilds Z, P, N and A first. -/
def apply : Instr → CpuState → CpuState
  | .setznp .w8 val => setznp8 val
  | .setznp .w16 val => setznp16 val
  | .setznp .w32 val => setznp32 val
  | .setadd .w8 a b => setadd8 a b
  | .setadd .w16 a b => setadd16 a b
  | .setadd .w32 a b => setadd32 a b
  | .setsub .w8 a b => setsub8 a b
  | .setsub .w16 a b => setsub16 a b
  | .setsub .w32 a b => setsub32 a b
  | .setaddnc .w8 a b => setadd8nc a b
  | .setaddnc .w16 a b => setadd16nc a b
  | .setaddnc .w32 a b => setadd32nc a b
  | .setsubnc .w8 a b => setsub8nc a b
  | .setsubnc .w16 a b => setsub16nc a b
  | .setsubnc .w32 a b => setsub32nc a b
  | .shift k n orig count res => set_flags_shift (shiftOp k n) orig count.1 res
  | .rotate k n res => fun st => set_flags_rotate (rotateOp k n) res (flags_rebuild_zpna st)

/-- The operations with no rebuild between them. -/
def lazyRun (is : List Instr) (st : CpuState) : CpuState :=
  is.foldl (fun st i => apply i st) st

/-- The operations with a rebuild after each one. -/
def eagerRun (is : List Instr) (st : CpuState) : CpuState :=
  is.foldl (fun st i => flags_rebuild (apply i st)) st

/-! ## The partial rebuilds -/

/-- The rebuild of C keeps all six flags. The five others still come from the
operation. -/
theorem flags_rebuild_c_c (st : CpuState) :
    isSet ((flags_rebuild_c st).flags &&& C_FLAG) = CF_SET st := by
  unfold flags_rebuild_c
  rw [isSet_C_FLAG]
  split
  · split
    · rename_i h
      simp [h, C_FLAG]
    · rename_i h
      simp [h, C_FLAG]
  · rename_i h
    have h := not_not.mp h
    simp only [CF_SET, h, isSet_C_FLAG]

/-- The rebuild before a rotate stores the four flags that a rotate keeps. -/
theorem flags_rebuild_zpna_reads (st : CpuState) :
    let f := (flags_rebuild_zpna st).flags
    isSet (f &&& P_FLAG) = PF_SET st ∧ isSet (f &&& A_FLAG) = AF_SET st ∧
      isSet (f &&& Z_FLAG) = ZF_SET st ∧ isSet (f &&& N_FLAG) = NF_SET st := by
  intro f
  unfold f flags_rebuild_zpna
  split
  · simp only [isSet_P_FLAG, isSet_A_FLAG, isSet_Z_FLAG, isSet_N_FLAG, BitVec.getLsbD_or,
      BitVec.getLsbD_and, getLsbD_orIf]
    simp [P_FLAG, A_FLAG, Z_FLAG, N_FLAG]
  · rename_i h
    have h := not_not.mp h
    simp only [PF_SET, AF_SET, ZF_SET, NF_SET, h, and_self]

/-! ## One operation -/

/-- The C and O of a rotate come from its result. -/
theorem observe_rotate (k : RotateKind) (n : Width) (res : BitVec 32) (st st' : CpuState)
    (h : observe st = observe st') :
    observe (apply (.rotate k n res) st) = observe (apply (.rotate k n res) st') := by
  obtain ⟨p1, a1, z1, n1⟩ := flags_rebuild_zpna_reads st
  obtain ⟨p2, a2, z2, n2⟩ := flags_rebuild_zpna_reads st'
  simp only [observe, ArithFlags.mk.injEq] at h
  obtain ⟨-, hp, ha, hz, hn, -⟩ := h
  rw [hp, ← p2] at p1
  rw [ha, ← a2] at a1
  rw [hz, ← z2] at z1
  rw [hn, ← n2] at n1
  cases k <;> cases n <;>
    simp only [observe, apply, set_flags_rotate, rotateOp, CF_SET, PF_SET, AF_SET, ZF_SET, NF_SET,
      VF_SET, p1, a1, z1, n1]

theorem observe_shift (k : ShiftKind) (n : Width) (orig : BitVec 32) (count : ShiftCount)
    (res : BitVec 32) (st st' : CpuState) :
    observe (apply (.shift k n orig count res) st) =
      observe (apply (.shift k n orig count res) st') := by
  cases k <;> cases n <;>
    simp only [observe, apply, set_flags_shift, lazySet, shiftOp, CF_SET, PF_SET, AF_SET, ZF_SET,
      NF_SET, VF_SET]

theorem observe_setznp (n : Width) (val : BitVec n.bits) (st st' : CpuState) :
    observe (apply (.setznp n val) st) = observe (apply (.setznp n val) st') := by
  cases n <;>
    simp only [observe, apply, setznp8, setznp16, setznp32, CF_SET, PF_SET, AF_SET, ZF_SET,
      NF_SET, VF_SET]

/-! ## The flags of an addition and of a subtraction -/

def addOp : Width → FlagsOp
  | .w8 => .FLAGS_ADD8
  | .w16 => .FLAGS_ADD16
  | .w32 => .FLAGS_ADD32

def incOp : Width → FlagsOp
  | .w8 => .FLAGS_INC8
  | .w16 => .FLAGS_INC16
  | .w32 => .FLAGS_INC32

def subOp : Width → FlagsOp
  | .w8 => .FLAGS_SUB8
  | .w16 => .FLAGS_SUB16
  | .w32 => .FLAGS_SUB32

def decOp : Width → FlagsOp
  | .w8 => .FLAGS_DEC8
  | .w16 => .FLAGS_DEC16
  | .w32 => .FLAGS_DEC32

theorem bits_pos (n : Width) : 0 < n.bits := by cases n <;> decide

theorem bits_le (n : Width) : n.bits ≤ 32 := by cases n <;> decide

theorem add_tempcInt_false (x : BitVec 32) : x + tempcInt false = x := BitVec.add_zero x

/-- The low digits of a sum, in `AF_SET`. -/
theorem lazy_add_digits {w : Nat} (h32 : w ≤ 32) (a b : BitVec w) :
    ((int32 a &&& 0xf) + (int32 b &&& 0xf)).getLsbD 4 = (addFlags a b false).a := by
  have h := eager_add_aux h32 a b false
  rwa [add_tempcInt_false] at h

theorem lazy_sub_digits {w : Nat} (h32 : w ≤ 32) (a b : BitVec w) :
    ((int32 a &&& 0xf) - (int32 b &&& 0xf)).getLsbD 4 = (subFlags a b false).a := by
  have h := eager_sub_aux h32 a b false
  rwa [add_tempcInt_false] at h

/-- The stores of `setaddN` and `setaddNnc`. -/
theorem setadd_eq (n : Width) (a b : BitVec n.bits) (st : CpuState) :
    apply (.setadd n a b) st =
      lazySet (addOp n) (int32 a) (int32 b) (int32 (addResult a b false)) st := by
  have h := fun (hn : n.bits < 32) => setWidth_narrow_add hn false a b
  simp only [add_tempcInt_false] at h
  cases n with
  | w8 =>
    simp only [apply, setadd8, addOp, mask8]
    rw [h (by decide)]
  | w16 =>
    simp only [apply, setadd16, addOp, mask16]
    rw [h (by decide)]
  | w32 =>
    have h32 := add32 false a b
    rw [add_tempcInt_false] at h32
    simp only [apply, setadd32, addOp, int32_self, h32]

theorem setsub_eq (n : Width) (a b : BitVec n.bits) (st : CpuState) :
    apply (.setsub n a b) st =
      lazySet (subOp n) (int32 a) (int32 b) (int32 (subResult a b false)) st := by
  have h := fun (hn : n.bits < 32) => setWidth_narrow_sub hn false a b
  simp only [add_tempcInt_false] at h
  cases n with
  | w8 =>
    simp only [apply, setsub8, subOp, mask8]
    rw [h (by decide)]
  | w16 =>
    simp only [apply, setsub16, subOp, mask16]
    rw [h (by decide)]
  | w32 =>
    have h32 := sub32 false a b
    rw [add_tempcInt_false] at h32
    simp only [apply, setsub32, subOp, int32_self, h32]

/-- `INC` is `ADD` after a rebuild of the carry, under another code. -/
theorem setaddnc_eq (n : Width) (a b : BitVec n.bits) (st : CpuState) :
    apply (.setaddnc n a b) st =
      { apply (.setadd n a b) (flags_rebuild_c st) with flags_op := incOp n } := by
  cases n <;> rfl

theorem setsubnc_eq (n : Width) (a b : BitVec n.bits) (st : CpuState) :
    apply (.setsubnc n a b) st =
      { apply (.setsub n a b) (flags_rebuild_c st) with flags_op := decOp n } := by
  cases n <;> rfl

/-- All but the carry, after an addition and after an increment. -/
theorem observe_sum (op : FlagsOp) (n : Width) (hop : op = addOp n ∨ op = incOp n)
    (a b : BitVec n.bits) (st : CpuState) :
    let st' := lazySet op (int32 a) (int32 b) (int32 (addResult a b false)) st
    observe st' = { addFlags a b false with c := CF_SET st' } := by
  intro st'
  have hp := parity_flag (addResult a b false)
  have hz := zero_flag (addResult a b false) (bits_le n)
  have hn := int32_msb (addResult a b false) (bits_le n)
  have hv := lazy_add_overflow (bits_pos n) (bits_le n) a b false
  have ha := lazy_add_digits (bits_le n) a b
  have reads : PF_SET st' = evenParity (addResult a b false) ∧ AF_SET st' = (addFlags a b false).a ∧
      ZF_SET st' = decide (addResult a b false = 0) ∧ NF_SET st' = (addResult a b false).msb ∧
      VF_SET st' = (addFlags a b false).o := by
    cases n <;> rcases hop with rfl | rfl <;>
      simp only [st', lazySet, addOp, incOp, PF_SET, AF_SET, ZF_SET, NF_SET, VF_SET, isSet_sign8,
        isSet_sign16, isSet_sign32, isSet_carry4] <;>
      exact ⟨hp, ha, hz, hn, hv⟩
  obtain ⟨rp, ra, rz, rn, rv⟩ := reads
  simp only [observe, rp, ra, rz, rn, rv]
  rfl

theorem observe_difference (op : FlagsOp) (n : Width) (hop : op = subOp n ∨ op = decOp n)
    (a b : BitVec n.bits) (st : CpuState) :
    let st' := lazySet op (int32 a) (int32 b) (int32 (subResult a b false)) st
    observe st' = { subFlags a b false with c := CF_SET st' } := by
  intro st'
  have hp := parity_flag (subResult a b false)
  have hz := zero_flag (subResult a b false) (bits_le n)
  have hn := int32_msb (subResult a b false) (bits_le n)
  have hv := lazy_sub_overflow (bits_pos n) (bits_le n) a b false
  have ha := lazy_sub_digits (bits_le n) a b
  have reads : PF_SET st' = evenParity (subResult a b false) ∧ AF_SET st' = (subFlags a b false).a ∧
      ZF_SET st' = decide (subResult a b false = 0) ∧ NF_SET st' = (subResult a b false).msb ∧
      VF_SET st' = (subFlags a b false).o := by
    cases n <;> rcases hop with rfl | rfl <;>
      simp only [st', lazySet, subOp, decOp, PF_SET, AF_SET, ZF_SET, NF_SET, VF_SET, isSet_sign8,
        isSet_sign16, isSet_sign32, isSet_carry4] <;>
      exact ⟨hp, ha, hz, hn, hv⟩
  obtain ⟨rp, ra, rz, rn, rv⟩ := reads
  simp only [observe, rp, ra, rz, rn, rv]
  rfl

/-- The carry of an addition: the bit above a narrow sum, and the wrap of a
32-bit one. -/
theorem carry_setadd (n : Width) (a b : BitVec n.bits) (st : CpuState) :
    CF_SET (apply (.setadd n a b) st) = (addFlags a b false).c := by
  have narrow := fun (h : n.bits < 32) => eager_add_carry h a b false
  simp only [add_tempcInt_false] at narrow
  cases n with
  | w8 => simpa only [apply, setadd8, lazySet, CF_SET, isSet_carry8] using narrow (by decide)
  | w16 => simpa only [apply, setadd16, lazySet, CF_SET, isSet_carry16] using narrow (by decide)
  | w32 =>
    have ha := a.isLt
    have hb := b.isLt
    have hr := addResult_toNat a b false
    have h32 := add32 false a b
    rw [add_tempcInt_false] at h32
    simp only [apply, setadd32, lazySet, CF_SET, h32, addFlags, decide_eq_decide, BitVec.lt_def]
    simp only [Width.bits, Bool.toNat_false] at *
    split at hr <;> omega

theorem borrow_setsub (n : Width) (a b : BitVec n.bits) (st : CpuState) :
    CF_SET (apply (.setsub n a b) st) = (subFlags a b false).c := by
  have below : decide (int32 a < int32 b) = (subFlags a b false).c := by
    simp only [subFlags, decide_eq_decide, int32_lt (bits_le n)]
    simp
  cases n with
  | w8 => exact below
  | w16 => exact below
  | w32 =>
    simp only [int32_self] at below
    exact below

/-- An increment reads the carry that the rebuild before it stored. -/
theorem carry_setaddnc (n : Width) (a b : BitVec n.bits) (st : CpuState) :
    CF_SET (apply (.setaddnc n a b) st) = CF_SET st := by
  rw [← flags_rebuild_c_c st]
  cases n <;> rfl

theorem carry_setsubnc (n : Width) (a b : BitVec n.bits) (st : CpuState) :
    CF_SET (apply (.setsubnc n a b) st) = CF_SET st := by
  rw [← flags_rebuild_c_c st]
  cases n <;> rfl

/-! ## The meaning of an operation -/

/-- What an operation makes of the flags before it, for the four kinds that the
processor manual defines by their operands. -/
def AsManual (i : Instr) (before after : ArithFlags) : Prop :=
  match i with
  | .setadd _ a b => after = addFlags a b false
  | .setsub _ a b => after = subFlags a b false
  | .setaddnc _ a b => after = { addFlags a b false with c := before.c }
  | .setsubnc _ a b => after = { subFlags a b false with c := before.c }
  | _ => True

theorem observe_setadd (n : Width) (a b : BitVec n.bits) (st : CpuState) :
    observe (apply (.setadd n a b) st) = addFlags a b false := by
  have hc := carry_setadd n a b st
  rw [setadd_eq] at hc ⊢
  rw [observe_sum (addOp n) n (Or.inl rfl), hc]

theorem observe_setsub (n : Width) (a b : BitVec n.bits) (st : CpuState) :
    observe (apply (.setsub n a b) st) = subFlags a b false := by
  have hc := borrow_setsub n a b st
  rw [setsub_eq] at hc ⊢
  rw [observe_difference (subOp n) n (Or.inl rfl), hc]

theorem observe_setaddnc (n : Width) (a b : BitVec n.bits) (st : CpuState) :
    observe (apply (.setaddnc n a b) st) = { addFlags a b false with c := (observe st).c } := by
  have hc := carry_setaddnc n a b st
  rw [setaddnc_eq, setadd_eq] at hc ⊢
  have h := observe_sum (incOp n) n (Or.inr rfl) a b (flags_rebuild_c st)
  exact h.trans (congrArg (fun c => { addFlags a b false with c := c }) hc)

theorem observe_setsubnc (n : Width) (a b : BitVec n.bits) (st : CpuState) :
    observe (apply (.setsubnc n a b) st) = { subFlags a b false with c := (observe st).c } := by
  have hc := carry_setsubnc n a b st
  rw [setsubnc_eq, setsub_eq] at hc ⊢
  have h := observe_difference (decOp n) n (Or.inr rfl) a b (flags_rebuild_c st)
  exact h.trans (congrArg (fun c => { subFlags a b false with c := c }) hc)

theorem apply_as_manual (i : Instr) (st : CpuState) :
    AsManual i (observe st) (observe (apply i st)) := by
  cases i with
  | setznp => trivial
  | setadd n a b => exact observe_setadd n a b st
  | setsub n a b => exact observe_setsub n a b st
  | setaddnc n a b => exact observe_setaddnc n a b st
  | setsubnc n a b => exact observe_setsubnc n a b st
  | shift => trivial
  | rotate => trivial

/-- An operation sees no more of the state than the six flags. -/
theorem observe_apply_congr (i : Instr) (st st' : CpuState) (h : observe st = observe st') :
    observe (apply i st) = observe (apply i st') := by
  cases i with
  | setznp n val => exact observe_setznp n val st st'
  | setadd n a b => rw [observe_setadd, observe_setadd]
  | setsub n a b => rw [observe_setsub, observe_setsub]
  | setaddnc n a b => rw [observe_setaddnc, observe_setaddnc, h]
  | setsubnc n a b => rw [observe_setsubnc, observe_setsubnc, h]
  | shift k n orig count res => exact observe_shift k n orig count res st st'
  | rotate k n res => exact observe_rotate k n res st st' h

/-! ## The laws -/

theorem observe_run_congr (is : List Instr) (st st' : CpuState) (h : observe st = observe st') :
    observe (lazyRun is st) = observe (eagerRun is st') := by
  unfold lazyRun eagerRun
  induction is generalizing st st' with
  | nil => exact h
  | cons i is ih =>
    rw [List.foldl_cons, List.foldl_cons]
    apply ih
    rw [observe_flags_rebuild]
    exact observe_apply_congr i st st' h

/-- A sequence without rebuilds shows the flags of the sequence with them: what
the flag functions give, and what the last rebuild stored. The last operation
has the flags of the manual. -/
theorem no_sequence_loses_a_flag (st : CpuState) :
    (∀ is : List Instr, observe (lazyRun is st) = observe (eagerRun is st)) ∧
      ∀ (is : List Instr) (i : Instr),
        observe (lazyRun (is ++ [i]) st) = stored (eagerRun (is ++ [i]) st).flags ∧
          AsManual i (observe (lazyRun is st)) (observe (lazyRun (is ++ [i]) st)) := by
  refine ⟨fun is => observe_run_congr is st st rfl, fun is i => ⟨?_, ?_⟩⟩
  · rw [observe_run_congr (is ++ [i]) st st rfl]
    unfold eagerRun
    rw [List.foldl_append, List.foldl_cons, List.foldl_nil, observe_flags_rebuild,
      stored_flags_rebuild]
  · unfold lazyRun
    rw [List.foldl_append, List.foldl_cons, List.foldl_nil]
    exact apply_as_manual i _

end blumach.x86_flags
