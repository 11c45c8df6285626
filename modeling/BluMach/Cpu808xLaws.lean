-- The law of the 808x arithmetic. The adder and the subtractor give the result
-- and the flags of the processor manual for the operand that they take back a
-- carry from, so an instruction is right unless it takes back one that was
-- never put in. The loop of the instructions sees to it that none is.
import BluMach.Cpu808x
import BluMach.FlagsCarry

namespace blumach.cpu_808x

open arith_flags x86_flags

/-! ## The flags word -/

theorem getLsbD_setFlag (i : Nat) (hi : i < 16) (cond : Bool) (flags : BitVec 16) (j : Nat) :
    (setFlag (BitVec.twoPow 16 i) cond flags).getLsbD j =
      if j = i then cond else flags.getLsbD j := by
  unfold setFlag
  by_cases hj : j = i
  · subst hj
    cases cond <;> simp [hi]
  · by_cases h16 : j < 16
    · cases cond <;> simp [hj, h16]
    · cases cond <;> simp [hj, Ne.symm hj, h16, BitVec.getLsbD_of_ge flags j (by omega)]

/-- What the six arithmetic flags are, as the bits of the word. -/
theorem stored_bits (flags : BitVec 16) :
    stored flags = ⟨flags.getLsbD 0, flags.getLsbD 2, flags.getLsbD 4, flags.getLsbD 6,
      flags.getLsbD 7, flags.getLsbD 11⟩ := by
  simp only [stored, isSet_C_FLAG, isSet_P_FLAG, isSet_A_FLAG, isSet_Z_FLAG, isSet_N_FLAG,
    isSet_V_FLAG]

section

variable (cond : Bool) (flags : BitVec 16)

@[simp] theorem stored_C :
    stored (setFlag C_FLAG cond flags) = { stored flags with c := cond } := by
  have h := getLsbD_setFlag 0 (by decide) cond flags
  simp only [stored_bits, show C_FLAG = BitVec.twoPow 16 0 from rfl, h]
  rfl

@[simp] theorem stored_P :
    stored (setFlag P_FLAG cond flags) = { stored flags with p := cond } := by
  have h := getLsbD_setFlag 2 (by decide) cond flags
  simp only [stored_bits, show P_FLAG = BitVec.twoPow 16 2 from rfl, h]
  rfl

@[simp] theorem stored_A :
    stored (setFlag A_FLAG cond flags) = { stored flags with a := cond } := by
  have h := getLsbD_setFlag 4 (by decide) cond flags
  simp only [stored_bits, show A_FLAG = BitVec.twoPow 16 4 from rfl, h]
  rfl

@[simp] theorem stored_Z :
    stored (setFlag Z_FLAG cond flags) = { stored flags with z := cond } := by
  have h := getLsbD_setFlag 6 (by decide) cond flags
  simp only [stored_bits, show Z_FLAG = BitVec.twoPow 16 6 from rfl, h]
  rfl

@[simp] theorem stored_N :
    stored (setFlag N_FLAG cond flags) = { stored flags with s := cond } := by
  have h := getLsbD_setFlag 7 (by decide) cond flags
  simp only [stored_bits, show N_FLAG = BitVec.twoPow 16 7 from rfl, h]
  rfl

@[simp] theorem stored_V :
    stored (setFlag V_FLAG cond flags) = { stored flags with o := cond } := by
  have h := getLsbD_setFlag 11 (by decide) cond flags
  simp only [stored_bits, show V_FLAG = BitVec.twoPow 16 11 from rfl, h]
  rfl

end

/-- The carry that is set is the flag set to one. -/
theorem setCarry_flags (special_case carry : Bool) (st : Cpu) :
    (setCarry special_case carry st).flags =
      setFlag C_FLAG (special_case || carry) st.flags := by
  unfold setCarry
  cases special_case
  · rfl
  · simp only [if_true, Bool.true_or, setFlag]
    apply BitVec.eq_of_getLsbD_eq
    intro i hi
    simp only [BitVec.getLsbD_or, BitVec.getLsbD_and, BitVec.getLsbD_not, hi, decide_true,
      Bool.true_and]
    cases C_FLAG.getLsbD i <;> simp

/-! ## Words in the 32 bits of a global -/

section

variable {word : Bool} (x y : BitVec 32)

theorem sizeBits_bounds (word : Bool) : 8 ≤ sizeBits word ∧ sizeBits word ≤ 16 := by
  cases word <;> decide

theorem top_bit_low :
    top_bit (x.setWidth 16) (sizeBits word) = (x.setWidth (sizeBits word)).msb := by
  have hbits := sizeBits_bounds word
  rw [top_bit, isSet_twoPow, BitVec.msb_eq_getLsbD_last, BitVec.getLsbD_setWidth,
    BitVec.getLsbD_setWidth]
  simp only [show sizeBits word - 1 < 16 by omega,
    show sizeBits word - 1 < sizeBits word by omega]

theorem and_size_mask :
    x &&& size_mask (sizeBits word) = (x.setWidth (sizeBits word)).setWidth 32 := by
  cases word
  · exact mask8 x
  · exact mask16 x

theorem low_lt : (x &&& size_mask (sizeBits word) < y &&& size_mask (sizeBits word)) ↔
    (x.setWidth (sizeBits word)).toNat < (y.setWidth (sizeBits word)).toNat := by
  have hbits := sizeBits_bounds word
  rw [and_size_mask, and_size_mask]
  exact int32_lt (by omega) _ _

theorem low_zero : (x &&& size_mask (sizeBits word) = 0) ↔ x.setWidth (sizeBits word) = 0 := by
  have hbits := sizeBits_bounds word
  rw [and_size_mask]
  exact int32_eq_zero _ (by omega)

theorem parity_low : evenParity x = evenParity (x.setWidth (sizeBits word)) := by
  have hbits := sizeBits_bounds word
  apply evenParity_congr
  intro e he
  rw [BitVec.getLsbD_setWidth, decide_eq_true (by omega : e < sizeBits word), Bool.true_and]

end

/-! ## The adder and the subtractor -/

section

variable (word : Bool) (st : Cpu)

/-- The low bits of a global, as wide as the operands are. -/
def low (x : BitVec 32) : BitVec (sizeBits word) := x.setWidth (sizeBits word)

theorem low_add (x y : BitVec 32) : low word (x + y) = low word x + low word y :=
  BitVec.setWidth_add x y (by have := sizeBits_bounds word; omega)

theorem low_sub (x y : BitVec 32) : low word (x - y) = low word x - low word y := by
  have h := low_add word (x - y) y
  rw [BitVec.sub_add_cancel] at h
  exact BitVec.eq_sub_iff_add_eq.mpr h.symm

theorem low_one : low word 1 = 1 := by cases word <;> rfl

/-- The operand that the adder or the subtractor takes the carry back from. -/
theorem low_takeBack (op : Nat) :
    low word st.cpu_src = bumped (low word (takeBack op st).cpu_src) (bumpedFor op st) := by
  unfold takeBack
  cases bumpedFor op st
  · rw [bumped, Bool.toNat_false, Nat.add_zero, BitVec.ofNat_toNat, BitVec.setWidth_eq]
    rfl
  · rw [bumped, Bool.toNat_true, BitVec.ofNat_add, BitVec.ofNat_toNat, BitVec.setWidth_eq]
    simp only [if_true]
    rw [low_sub, low_one]
    exact (BitVec.sub_add_cancel _ _).symm

theorem takeBack_other (op : Nat) :
    (takeBack op st).flags = st.flags ∧ (takeBack op st).cpu_data = st.cpu_data ∧
      (takeBack op st).cpu_dest = st.cpu_dest ∧ (takeBack op st).cpu_alu_op = st.cpu_alu_op := by
  unfold takeBack
  split <;> exact ⟨rfl, rfl, rfl, rfl⟩

theorem low_xor (x y : BitVec 32) : low word (x ^^^ y) = low word x ^^^ low word y :=
  BitVec.setWidth_xor

theorem low_and (x y : BitVec 32) : low word (x &&& y) = low word x &&& low word y :=
  BitVec.setWidth_and

theorem isSet_four (x : BitVec 32) : isSet (x &&& 0x10) = (low word x).getLsbD 4 := by
  have hbits := sizeBits_bounds word
  rw [isSet_carry4, low, BitVec.getLsbD_setWidth, decide_eq_true (by omega : 4 < sizeBits word),
    Bool.true_and]

/-- The flags after a result, but for the carry and the overflow. -/
theorem stored_set_apzs :
    stored (set_apzs (sizeBits word) st).flags =
      { stored st.flags with
        p := evenParity (low word st.cpu_data)
        z := decide (low word st.cpu_data = 0)
        s := (low word st.cpu_data).msb
        a := (low word st.cpu_data ^^^ low word st.cpu_src ^^^
          low word st.cpu_dest).getLsbD 4 } := by
  have hp := @parity_low word st.cpu_data
  have hz : decide (st.cpu_data &&& size_mask (sizeBits word) = 0) =
      decide (low word st.cpu_data = 0) := decide_eq_decide.mpr (low_zero st.cpu_data)
  have hs : top_bit (st.cpu_data.setWidth 16) (sizeBits word) = (low word st.cpu_data).msb :=
    top_bit_low st.cpu_data
  have ha := isSet_four word (st.cpu_data ^^^ st.cpu_src ^^^ st.cpu_dest)
  rw [low_xor, low_xor] at ha
  simp only [set_apzs, do_af, set_af, set_pzs, set_sf, set_zf, set_zf_ex, set_pf, stored_A,
    stored_N, stored_Z, stored_P, hp, hz, hs, ha]
  rfl

theorem takeBack_data (op : Nat) (x : BitVec 32) :
    takeBack op { st with cpu_data := x } = { takeBack op st with cpu_data := x } := by
  change (if bumpedFor op st then _ else _) = _
  unfold takeBack
  split <;> rfl

theorem setCarry_data (special_case carry : Bool) :
    (setCarry special_case carry st).cpu_data = st.cpu_data := by
  unfold setCarry
  split <;> rfl

theorem special_eq (op : Nat) :
    (bumpedFor op st && decide (st.cpu_src &&& size_mask (sizeBits word) = 0)) =
      (bumpedFor op st &&
        decide (bumped (low word (takeBack op st).cpu_src) (bumpedFor op st) = 0)) := by
  rw [← low_takeBack, decide_eq_decide.mpr (low_zero st.cpu_src)]
  rfl

/-- The flags but for the carry and the overflow, of an operation that gave `r`. -/
theorem stored_result (op : Nat) (x : BitVec 32) :
    stored (set_apzs (sizeBits word) { takeBack op st with cpu_data := x }).flags =
      { stored st.flags with
        p := evenParity (low word x)
        z := decide (low word x = 0)
        s := (low word x).msb
        a := (low word x ^^^ low word (takeBack op st).cpu_src ^^^
          low word st.cpu_dest).getLsbD 4 } := by
  obtain ⟨hflags, -, hdest, -⟩ := takeBack_other st op
  rw [stored_set_apzs]
  simp only [hflags, hdest]

theorem top_bit_and_xor (x y u v : BitVec 32) :
    top_bit (((x ^^^ y) &&& (u ^^^ v)).setWidth 16) (sizeBits word) =
      (((low word x).msb ^^ (low word y).msb) && ((low word u).msb ^^ (low word v).msb)) := by
  rw [top_bit_low]
  change (low word _).msb = _
  rw [low_and, low_xor, low_xor, BitVec.msb_and, BitVec.msb_xor, BitVec.msb_xor]

theorem sign_of_sum (r b a : Bool) : ((r ^^ b) && (r ^^ a)) = (!(a ^^ b) && (a ^^ r)) := by
  cases r <;> cases b <;> cases a <;> rfl

/-- The adder adds what it takes the carry back from, with the carry. -/
theorem add_spec :
    let a := low word st.cpu_dest
    let b := low word (takeBack 2 st).cpu_src
    low word (add (sizeBits word) st).cpu_data = addResult a b (bumpedFor 2 st) ∧
      stored (add (sizeBits word) st).flags = addFlags a b (bumpedFor 2 st) := by
  intro a b
  have hbits := sizeBits_bounds word
  obtain ⟨-, -, hdest, -⟩ := takeBack_other st 2
  have hsum : low word (st.cpu_dest + st.cpu_src) = addResult a b (bumpedFor 2 st) := by
    rw [low_add, low_takeBack word st 2, add_bumped]
  have hadd := takeBack_data st 2 (st.cpu_dest + st.cpu_src)
  have hres := stored_result word st 2 (st.cpu_dest + st.cpu_src)
  unfold add
  simp only [hadd, setCarry_flags, setCarry_data, stored_C, set_of_add, set_of, stored_V]
  refine ⟨hsum, ?_⟩
  rw [hres]
  have hcarry : decide ((st.cpu_dest + st.cpu_src) &&& size_mask (sizeBits word) <
      st.cpu_src &&& size_mask (sizeBits word)) =
      decide ((addResult a b (bumpedFor 2 st)).toNat < (bumped b (bumpedFor 2 st)).toNat) := by
    rw [decide_eq_decide.mpr (low_lt _ st.cpu_src), ← low_takeBack word st 2, ← hsum]
    rfl
  have hover := top_bit_and_xor word (st.cpu_dest + st.cpu_src) (takeBack 2 st).cpu_src
    (st.cpu_dest + st.cpu_src) (takeBack 2 st).cpu_dest
  rw [hsum, show low word (takeBack 2 st).cpu_dest = a from congrArg (low word) hdest] at hover
  ext1
  · rw [add_carry, ← special_eq word st 2, ← hcarry]
    rfl
  · simp only [hsum, addFlags]
  · rw [← add_aux (by omega) a b, ← hsum]
  · simp only [hsum, addFlags]
  · simp only [hsum, addFlags]
  · rw [add_overflow (by omega) a b]
    exact hover.trans (sign_of_sum _ _ _)

/-- The subtractor subtracts what it takes the carry back from, with the carry. -/
theorem sub_spec :
    let a := low word st.cpu_dest
    let b := low word (takeBack 3 st).cpu_src
    low word (sub (sizeBits word) st).cpu_data = subResult a b (bumpedFor 3 st) ∧
      stored (sub (sizeBits word) st).flags = subFlags a b (bumpedFor 3 st) := by
  intro a b
  have hbits := sizeBits_bounds word
  obtain ⟨-, -, hdest, -⟩ := takeBack_other st 3
  have hdiff : low word (st.cpu_dest - st.cpu_src) = subResult a b (bumpedFor 3 st) := by
    rw [low_sub, low_takeBack word st 3]
    rfl
  have hsub := takeBack_data st 3 (st.cpu_dest - st.cpu_src)
  have hres := stored_result word st 3 (st.cpu_dest - st.cpu_src)
  unfold sub
  simp only [hsub, setCarry_flags, setCarry_data, stored_C, set_of_sub, set_of, stored_V]
  refine ⟨hdiff, ?_⟩
  rw [hres]
  have hsame : low word (takeBack 3 st).cpu_dest = a := congrArg (low word) hdest
  have hcarry : decide ((takeBack 3 st).cpu_dest &&& size_mask (sizeBits word) <
      st.cpu_src &&& size_mask (sizeBits word)) =
      decide (a.toNat < (bumped b (bumpedFor 3 st)).toNat) := by
    refine decide_eq_decide.mpr ((low_lt _ st.cpu_src).trans ?_)
    rw [← low_takeBack word st 3, ← hsame]
    rfl
  have hover := top_bit_and_xor word (takeBack 3 st).cpu_dest (takeBack 3 st).cpu_src
    (st.cpu_dest - st.cpu_src) (takeBack 3 st).cpu_dest
  rw [hdiff, hsame] at hover
  ext1
  · rw [sub_borrow, ← special_eq word st 3, ← hcarry]
    rfl
  · simp only [hdiff, subFlags]
  · rw [← sub_aux (by omega) a b, ← hdiff]
  · simp only [hdiff, subFlags]
  · simp only [hdiff, subFlags]
  · rw [sub_overflow (by omega) a b, Bool.xor_comm a.msb (subResult a b _).msb]
    exact hover

end

/-! ## What the manual says -/

/-- The arithmetic that the manual names. -/
inductive Kind where
  | add | adc | sub | sbb
deriving DecidableEq, Repr

/-- Whether the operation takes the carry in. -/
def Kind.takesCarry : Kind → Bool
  | .add | .sub => false
  | .adc | .sbb => true

def Kind.result {w : Nat} (k : Kind) (a b : BitVec w) (carry : Bool) : BitVec w :=
  match k with
  | .add | .adc => addResult a b (k.takesCarry && carry)
  | .sub | .sbb => subResult a b (k.takesCarry && carry)

def Kind.flags {w : Nat} (k : Kind) (a b : BitVec w) (carry : Bool) : ArithFlags :=
  match k with
  | .add | .adc => addFlags a b (k.takesCarry && carry)
  | .sub | .sbb => subFlags a b (k.takesCarry && carry)

/-- ADD, ADC, SBB, and SUB and CMP. The logical operations are none of these. -/
def kindOf : Nat → Option Kind
  | 0 => some .add
  | 2 => some .adc
  | 3 => some .sbb
  | 5 | 7 => some .sub
  | _ => none

def Instr.kind : Instr → Option Kind
  | .alu_rm opcode .. | .alu_a_imm opcode .. => kindOf (aluField opcode)
  | .alu_rm_imm _ rmdat .. => kindOf (aluField rmdat)
  | .neg .. | .cmps .. | .scas .. => some .sub

/-- The instruction that only compares writes nothing. -/
def Instr.compares : Instr → Bool
  | .alu_rm opcode .. | .alu_a_imm opcode .. => aluField opcode = 7
  | .alu_rm_imm _ rmdat .. => aluField rmdat = 7
  | .neg .. => false
  | .cmps .. | .scas .. => true

/-- The instruction goes through `alu_op`, which has its code in `cpu_alu_op`. -/
def Instr.setsCode : Instr → Bool
  | .alu_rm .. | .alu_a_imm .. | .alu_rm_imm .. => true
  | .neg .. | .cmps .. | .scas .. => false

def Instr.dest (i : Instr) : BitVec (sizeBits i.word) :=
  match i with
  | .alu_rm opcode ea reg => (if toReg opcode then reg else ea).setWidth _
  | .alu_a_imm _ accum _ => accum.setWidth _
  | .alu_rm_imm _ _ ea _ => ea.setWidth _
  | .neg .. => 0
  | .cmps _ atSI _ => atSI.setWidth _
  | .scas _ accum _ => accum.setWidth _

def Instr.src (i : Instr) : BitVec (sizeBits i.word) :=
  match i with
  | .alu_rm opcode ea reg => (if toReg opcode then ea else reg).setWidth _
  | .alu_a_imm _ _ imm => imm.setWidth _
  | .alu_rm_imm form _ _ imm =>
    if form = 1 then imm.setWidth _ else (imm.setWidth 8).signExtend _
  | .neg _ ea => ea.setWidth _
  | .cmps _ _ atDI => atDI.setWidth _
  | .scas _ _ atDI => atDI.setWidth _

/-- The instruction gives the result and the flags of the manual, and writes the result unless it
only compares. -/
def Exact (i : Instr) (st : Cpu) : Prop :=
  ∀ k, i.kind = some k →
    stored (execute i st).flags = k.flags i.dest i.src st.carry ∧
    low i.word (execute i st).cpu_data = k.result i.dest i.src st.carry ∧
    written i st =
      if i.compares then none else some ((k.result i.dest i.src st.carry).setWidth 16)

/-- A borrow of an SBB before is taken back from the operand of an instruction that has none, and
the operand shows it. -/
def Stale (i : Instr) (st : Cpu) : Prop :=
  i.setsCode = false ∧ st.cpu_alu_op = 3 ∧ st.carry = true ∧ i.src.toNat % 16 = 0

instance (i : Instr) (st : Cpu) : Decidable (Stale i st) :=
  inferInstanceAs (Decidable (_ ∧ _ ∧ _ ∧ _))

/-! ## The carry that an instruction puts in -/

section

variable {word : Bool} {st : Cpu} {op : Nat}

theorem bumpedFor_bump (h : st.cpu_alu_op = op) : bumpedFor op (bump st) = st.carry := by
  unfold bumpedFor bump
  cases hc : st.carry
  · simp [hc]
  · simp only [if_true, h, true_and]
    exact (decide_eq_true_iff).mpr hc

theorem takeBack_bump (h : st.cpu_alu_op = op) : takeBack op (bump st) = st := by
  unfold takeBack
  rw [bumpedFor_bump h]
  unfold bump
  cases st.carry
  · rfl
  · simp only [if_true, BitVec.add_sub_cancel]

theorem bumpedFor_other (h : st.cpu_alu_op ≠ op) : bumpedFor op st = false := by
  simp [bumpedFor, h]

theorem takeBack_none (h : bumpedFor op st = false) : takeBack op st = st := by
  rw [takeBack, h]
  rfl

theorem bump_dest : (bump st).cpu_dest = st.cpu_dest := by
  unfold bump
  split <;> rfl

/-- `alu_op` is what the manual says for the code that it is called with. -/
theorem alu_op_spec {k : Kind} (h : kindOf st.cpu_alu_op = some k) :
    low word (alu_op (sizeBits word) st).cpu_data =
        k.result (low word st.cpu_dest) (low word st.cpu_src) st.carry ∧
      stored (alu_op (sizeBits word) st).flags =
        k.flags (low word st.cpu_dest) (low word st.cpu_src) st.carry := by
  unfold kindOf at h
  unfold alu_op
  split at h <;> rename_i hop <;> cases h <;> simp only [hop]
  · have hspec := add_spec word st
    have hno := @bumpedFor_other st 2 (by omega)
    rw [hno, takeBack_none hno] at hspec
    exact hspec
  · have hspec := add_spec word (bump st)
    rw [bumpedFor_bump hop, takeBack_bump hop, bump_dest] at hspec
    exact hspec
  · have hspec := sub_spec word (bump st)
    rw [bumpedFor_bump hop, takeBack_bump hop, bump_dest] at hspec
    exact hspec
  · have hspec := sub_spec word st
    have hno := @bumpedFor_other st 3 (by omega)
    rw [hno, takeBack_none hno] at hspec
    exact hspec
  · have hspec := sub_spec word st
    have hno := @bumpedFor_other st 3 (by omega)
    rw [hno, takeBack_none hno] at hspec
    exact hspec

/-- The subtractor on its own gives the difference, and its flags unless it takes a carry back
from an operand with no low digit. -/
theorem sub_alone :
    low word (sub (sizeBits word) st).cpu_data =
        subResult (low word st.cpu_dest) (low word st.cpu_src) false ∧
      (stored (sub (sizeBits word) st).flags =
          subFlags (low word st.cpu_dest) (low word st.cpu_src) false ↔
        ¬(st.cpu_alu_op = 3 ∧ st.carry = true ∧ (low word st.cpu_src).toNat % 16 = 0)) := by
  have hbits := sizeBits_bounds word
  have hspec := sub_spec word st
  by_cases hb : bumpedFor 3 st = true
  · have hstale : st.cpu_alu_op = 3 ∧ st.carry = true := of_decide_eq_true hb
    have hlent : low word (takeBack 3 st).cpu_src = low word st.cpu_src - 1 := by
      rw [takeBack, if_pos hb, low_sub, low_one]
    rw [hlent, hb] at hspec
    refine ⟨hspec.1.trans (subResult_lent _ _), ?_⟩
    rw [hspec.2, subFlags_lent (by omega)]
    simp only [hstale, true_and]
  · have hno : bumpedFor 3 st = false := Bool.eq_false_of_not_eq_true hb
    rw [hno, takeBack_none hno] at hspec
    refine ⟨hspec.1, iff_of_true hspec.2 fun h => hb (decide_eq_true ⟨h.1, h.2.1⟩)⟩

end

/-! ## The instructions -/

theorem sized_eq (word : Bool) (v : BitVec 16) :
    sized word v = (v.setWidth (sizeBits word)).setWidth 16 := by
  cases word
  · change v &&& 0xff = (v.setWidth 8).setWidth 16
    rw [← BitVec.toNat_inj, BitVec.toNat_and, BitVec.toNat_setWidth, BitVec.toNat_setWidth]
    have hlt := Nat.mod_lt v.toNat (show 2 ^ 8 > 0 by decide)
    exact (Nat.and_two_pow_sub_one_eq_mod v.toNat 8).trans
      (Nat.mod_eq_of_lt (by omega)).symm
  · exact ((BitVec.setWidth_eq _).trans (BitVec.setWidth_eq _)).symm

theorem low_sized (word : Bool) (v : BitVec 16) :
    low word ((sized word v).setWidth 32) = v.setWidth (sizeBits word) := by
  have hbits := sizeBits_bounds word
  rw [low, sized_eq, BitVec.setWidth_setWidth_of_le _ (by omega),
    BitVec.setWidth_setWidth_of_le _ (by omega), BitVec.setWidth_eq]

theorem sign_extend_eq (data : BitVec 8) : sign_extend data = data.signExtend 16 := by
  revert data
  decide +kernel

/-- The immediate operand, as the code widens it and as the manual does. -/
theorem low_immediate {word : Bool} (form : BitVec 2) (imm : BitVec 16)
    (hword : word = isWord (0x80 ||| form.setWidth 8)) :
    low word ((immediate (0x80 ||| form.setWidth 8) imm).setWidth 32) =
      if form = 1 then imm.setWidth (sizeBits word)
      else (imm.setWidth 8).signExtend (sizeBits word) := by
  have hbyte : ∀ data : BitVec 8,
      ((data.setWidth 16 ||| 0xff00).setWidth 32).setWidth 8 = data.signExtend 8 := by
    decide +kernel
  obtain rfl | rfl | rfl | rfl : form = 0 ∨ form = 1 ∨ form = 2 ∨ form = 3 := by
    clear hword
    revert form
    decide
  · obtain rfl : word = false := hword.trans (by decide)
    exact hbyte _
  · obtain rfl : word = true := hword.trans (by decide)
    exact BitVec.setWidth_setWidth_of_le _ (by decide)
  · obtain rfl : word = false := hword.trans (by decide)
    exact hbyte _
  · obtain rfl : word = true := hword.trans (by decide)
    change BitVec.setWidth 16 (BitVec.setWidth 32 (sign_extend _)) = BitVec.signExtend 16 _
    rw [sign_extend_eq]
    exact (BitVec.setWidth_setWidth_of_le _ (by decide)).trans (BitVec.setWidth_eq _)

/-! ## What is written -/

theorem sized_data (word : Bool) (x : BitVec 32) :
    sized word (x.setWidth 16) = (low word x).setWidth 16 := by
  have hbits := sizeBits_bounds word
  rw [sized_eq, BitVec.setWidth_setWidth_of_le x hbits.2]
  rfl

theorem add_code (bits : Nat) (st : Cpu) : (add bits st).cpu_alu_op = st.cpu_alu_op := by
  unfold add setCarry takeBack
  dsimp only
  split <;> split <;> rfl

theorem sub_code (bits : Nat) (st : Cpu) : (sub bits st).cpu_alu_op = st.cpu_alu_op := by
  unfold sub setCarry takeBack
  dsimp only
  split <;> split <;> rfl

theorem bump_code (st : Cpu) : (bump st).cpu_alu_op = st.cpu_alu_op := by
  unfold bump
  split <;> rfl

theorem alu_op_code (bits : Nat) (st : Cpu) : (alu_op bits st).cpu_alu_op = st.cpu_alu_op := by
  unfold alu_op
  split
  · rfl
  · rw [add_code, bump_code]
  · exact add_code ..
  · rw [sub_code, bump_code]
  · exact sub_code ..
  · exact sub_code ..
  · rfl
  · rfl
  · rfl

theorem written_eq (i : Instr) (st : Cpu) :
    written i st =
      if i.compares then none else some ((low i.word (execute i st).cpu_data).setWidth 16) := by
  have hform : ∀ op, (execute i st).cpu_alu_op = op → i.compares = decide (op = 7) →
      (if (execute i st).cpu_alu_op ≠ 7 then
        some (sized i.word ((execute i st).cpu_data.setWidth 16)) else none) =
      if i.compares then none else some ((low i.word (execute i st).cpu_data).setWidth 16) := by
    rintro op rfl hcompares
    rw [hcompares, sized_data]
    by_cases h7 : (execute i st).cpu_alu_op = 7 <;> simp [h7]
  cases i with
  | alu_rm opcode ea reg => exact hform _ (alu_op_code _ _) rfl
  | alu_a_imm opcode accum imm => exact hform _ (alu_op_code _ _) rfl
  | alu_rm_imm form rmdat ea imm => exact hform _ (alu_op_code _ _) rfl
  | neg opcode ea => exact congrArg some (sized_data _ _)
  | cmps opcode atSI atDI => rfl
  | scas opcode accum atDI => rfl

/-! ## The law -/

theorem alu_form {word : Bool} {op : Nat} {k : Kind} (h : kindOf op = some k) (st : Cpu)
    (dest src data : BitVec 32) :
    low word (alu_op (sizeBits word) { st with
        cpu_alu_op := op, cpu_dest := dest, cpu_src := src, cpu_data := data }).cpu_data =
      k.result (low word dest) (low word src) st.carry ∧
    stored (alu_op (sizeBits word) { st with
        cpu_alu_op := op, cpu_dest := dest, cpu_src := src, cpu_data := data }).flags =
      k.flags (low word dest) (low word src) st.carry :=
  alu_op_spec h

theorem sub_form {word : Bool} (st : Cpu) (dest src data : BitVec 32) :
    low word (sub (sizeBits word) { st with
        cpu_dest := dest, cpu_src := src, cpu_data := data }).cpu_data =
      subResult (low word dest) (low word src) false ∧
    (stored (sub (sizeBits word) { st with
        cpu_dest := dest, cpu_src := src, cpu_data := data }).flags =
      subFlags (low word dest) (low word src) false ↔
      ¬(st.cpu_alu_op = 3 ∧ st.carry = true ∧ (low word src).toNat % 16 = 0)) :=
  sub_alone

/-- The result and the flags that an instruction leaves, against the ones of the manual. -/
theorem execute_spec (i : Instr) (st : Cpu) {k : Kind} (hk : i.kind = some k) :
    low i.word (execute i st).cpu_data = k.result i.dest i.src st.carry ∧
      (stored (execute i st).flags = k.flags i.dest i.src st.carry ↔ ¬Stale i st) := by
  have hcoded : ∀ {p q : Prop}, p ∧ q → i.setsCode = true → p ∧ (q ↔ ¬Stale i st) :=
    fun h hs => ⟨h.1, iff_of_true h.2 fun hstale => Bool.noConfusion (hstale.1.symm.trans hs)⟩
  have halone : ∀ {p q r : Prop}, p ∧ (q ↔ ¬r) → i.setsCode = false →
      (Stale i st ↔ i.setsCode = false ∧ r) → p ∧ (q ↔ ¬Stale i st) :=
    fun h hs hr => ⟨h.1, h.2.trans (not_congr (hr.trans (and_iff_right hs)).symm)⟩
  cases i with
  | alu_rm opcode ea reg =>
    have hspec := @alu_form (isWord opcode) _ k hk st
      ((if toReg opcode then sized (isWord opcode) reg else sized (isWord opcode) ea).setWidth 32)
      ((if toReg opcode then sized (isWord opcode) ea else sized (isWord opcode) reg).setWidth 32)
      st.cpu_data
    rw [← apply_ite (sized _), ← apply_ite (sized _), low_sized, low_sized, apply_ite (sized _),
      apply_ite (sized _)] at hspec
    exact hcoded hspec rfl
  | alu_a_imm opcode accum imm =>
    have hspec := @alu_form (isWord opcode) _ k hk st ((sized (isWord opcode) accum).setWidth 32)
      ((sized (isWord opcode) imm).setWidth 32) ((sized (isWord opcode) imm).setWidth 32)
    rw [low_sized, low_sized] at hspec
    exact hcoded hspec rfl
  | alu_rm_imm form rmdat ea imm =>
    have hspec := @alu_form (isWord (0x80 ||| form.setWidth 8)) _ k hk st
      ((sized (isWord (0x80 ||| form.setWidth 8)) ea).setWidth 32)
      ((immediate (0x80 ||| form.setWidth 8) imm).setWidth 32)
      ((sized (isWord (0x80 ||| form.setWidth 8)) ea).setWidth 32)
    rw [low_sized, low_immediate form imm rfl] at hspec
    exact hcoded hspec rfl
  | neg opcode ea =>
    obtain rfl : Kind.sub = k := Option.some.inj hk
    have hspec := @sub_form (isWord opcode) st 0 ((sized (isWord opcode) ea).setWidth 32)
      ((sized (isWord opcode) ea).setWidth 32)
    rw [low_sized, show low (isWord opcode) 0 = 0 by cases isWord opcode <;> rfl] at hspec
    exact halone hspec rfl Iff.rfl
  | cmps opcode atSI atDI =>
    obtain rfl : Kind.sub = k := Option.some.inj hk
    have hspec := @sub_form (isWord opcode) st ((sized (isWord opcode) atSI).setWidth 32)
      ((sized (isWord opcode) atDI).setWidth 32) ((sized (isWord opcode) atDI).setWidth 32)
    rw [low_sized, low_sized] at hspec
    exact halone hspec rfl Iff.rfl
  | scas opcode accum atDI =>
    obtain rfl : Kind.sub = k := Option.some.inj hk
    have hspec := @sub_form (isWord opcode) st ((sized (isWord opcode) accum).setWidth 32)
      ((sized (isWord opcode) atDI).setWidth 32) ((sized (isWord opcode) atDI).setWidth 32)
    rw [low_sized, low_sized] at hspec
    exact halone hspec rfl Iff.rfl

/-- Every arithmetic instruction gives the result and the flags of the manual for its operands,
whatever was executed before, unless it is one without a code of its own after an SBB that left a
borrow. -/
theorem arithmetic_is_exact_unless_a_borrow_is_stale (i : Instr) (st : Cpu) :
    Exact i st ↔ ¬Stale i st := by
  constructor
  · intro h hstale
    obtain ⟨k, hk⟩ : ∃ k, i.kind = some k := by
      cases i <;>
        first | exact ⟨_, rfl⟩ | exact Bool.noConfusion (show true = false from hstale.1)
    exact (execute_spec i st hk).2.mp (h k hk).1 hstale
  · intro h k hk
    obtain ⟨hresult, hflags⟩ := execute_spec i st hk
    exact ⟨hflags.mpr h, hresult, by rw [written_eq, hresult]⟩

/-- Whatever was executed before, the loop leaves no borrow to take back. -/
theorem arithmetic_is_exact_after_any_instructions (i : Instr) (st : Cpu) (h : Begins st) :
    Exact i st := by
  refine (arithmetic_is_exact_unless_a_borrow_is_stale i st).mpr fun hstale => ?_
  have hcode := h.code.symm.trans hstale.2.1
  exact absurd hcode (by decide)

/-- NEG of a byte that is 0, after an SBB that left a borrow. -/
theorem neg_of_zero_is_exact_after_a_borrow :
    Exact (.neg 0xf6 0)
      { execute (.alu_a_imm 0x1c 0 1) ⟨0x0002, 0, 0, 0, 0⟩ with cpu_alu_op := 0 } :=
  arithmetic_is_exact_after_any_instructions _ _
    (.pass (.reset rfl) (.completed ⟨0x0002, 0, 0, 0, 0⟩ _))

end blumach.cpu_808x
