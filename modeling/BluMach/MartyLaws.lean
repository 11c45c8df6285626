-- What the ALU and the shifter of the cycle-exact core compute: the results and
-- the flags of the processor manual, and so many places of a shift of a word.
import BluMach.BitShift
import BluMach.Cpu808xLaws
import BluMach.Marty

namespace blumach.m808x

open arith_flags x86_flags cpu_808x

/-! ## The flags -/

theorem set_flag_state_eq (flag : BitVec 16) (state : Bool) (flags : BitVec 16) :
    set_flag_state flag state flags = setFlag flag state flags := by
  cases state
  · exact (BitVec.or_zero).symm
  · apply BitVec.eq_of_getLsbD_eq
    intro i hi
    change (flags ||| flag).getLsbD i = ((flags &&& ~~~flag) ||| flag).getLsbD i
    simp only [BitVec.getLsbD_or, BitVec.getLsbD_and, BitVec.getLsbD_not, hi, decide_true,
      Bool.true_and]
    cases flag.getLsbD i <;> simp

theorem parity_even8_eq (value : BitVec 8) : parity_even8 value = evenParity value := by
  revert value
  decide +kernel

/-- The low bits of a 16 bit word, as wide as the operands are. -/
def narrow (word : Bool) (x : BitVec 16) : BitVec (sizeBits word) := x.setWidth (sizeBits word)

/-- The top bit of an operand in a 16 bit word. -/
def signBit (word : Bool) : BitVec 16 := if word then 0x8000 else 0x0080

/-- The bits of an operand in a 16 bit word. -/
def maskOf (word : Bool) : BitVec 16 := if word then 0xffff else 0x00ff

theorem signBit_eq (word : Bool) : signBit word = BitVec.twoPow 16 (sizeBits word - 1) := by
  cases word <;> rfl

theorem and_signBit (word : Bool) (x : BitVec 16) :
    decide (x &&& signBit word ≠ 0) = (narrow word x).msb := by
  have hbits := sizeBits_bounds word
  have hset := isSet_twoPow x (sizeBits word - 1)
  rw [isSet, ← signBit_eq] at hset
  rw [BitVec.msb_eq_getLsbD_last, narrow, BitVec.getLsbD_setWidth, ← hset,
    decide_eq_true (by omega : sizeBits word - 1 < sizeBits word), Bool.true_and]
  simp only [ne_eq, decide_not, bne, beq_eq_decide]

theorem and_one (word : Bool) (x : BitVec 16) :
    decide (x &&& 1 ≠ 0) = (narrow word x).getLsbD 0 := by
  have hbits := sizeBits_bounds word
  have hset := isSet_twoPow x 0
  rw [isSet] at hset
  rw [narrow, BitVec.getLsbD_setWidth, ← hset, decide_eq_true (by omega : 0 < sizeBits word),
    Bool.true_and]
  simp only [ne_eq, decide_not, bne, beq_eq_decide]
  rfl

theorem and_mask (word : Bool) (x : BitVec 16) :
    x &&& maskOf word = (narrow word x).setWidth 16 := by
  rw [narrow, ← sized_eq]
  cases word
  · rfl
  · exact BitVec.and_allOnes

theorem narrow_setWidth (word : Bool) (x : BitVec (sizeBits word)) :
    narrow word (x.setWidth 16) = x := by
  have hbits := sizeBits_bounds word
  rw [narrow, BitVec.setWidth_setWidth_of_le _ (by omega), BitVec.setWidth_eq]

/-- The flags after a result. -/
theorem stored_set_szp (word : Bool) (result flags : BitVec 16) :
    stored (set_szp word result flags) =
      { stored flags with
        p := evenParity (narrow word result)
        z := decide (narrow word result = 0)
        s := (narrow word result).msb } := by
  have hsign := and_signBit word result
  cases word
  · have hsign8 : decide (result.setWidth 8 &&& 0x80 ≠ 0) = (result.setWidth 8).msb := by
      have hset := isSet_twoPow (result.setWidth 8) 7
      rw [isSet] at hset
      rw [BitVec.msb_eq_getLsbD_last, ← hset]
      simp only [ne_eq, decide_not, bne, beq_eq_decide]
      rfl
    simp only [set_szp, set_szp8, Bool.false_eq_true, if_false, set_flag_state_eq, S_FLAG,
      stored_P, stored_Z, stored_N, parity_even8_eq, hsign8]
    rfl
  · have hparity : evenParity (result.setWidth 8) = evenParity (narrow true result) :=
      evenParity_congr _ _ fun e he => by
        rw [narrow, BitVec.getLsbD_setWidth, BitVec.getLsbD_setWidth, decide_eq_true he,
          decide_eq_true (show e < sizeBits true by change e < 16; omega)]
    have hword : narrow true result = result := BitVec.setWidth_eq _
    have hsign16 : decide (result &&& 0x8000 ≠ 0) = (narrow true result).msb := hsign
    simp only [set_szp, set_szp16, if_true, set_flag_state_eq, S_FLAG, stored_P, stored_Z,
      stored_N, parity_even8_eq, hparity, hsign16]
    rw [hword]
    rfl

/-! ## The ALU -/

section

variable (word : Bool)

/-- An operand of the ALU, as the code widens it. -/
theorem operand_eq (x : BitVec 16) :
    x.setWidth 32 &&& (if word then 0xffff else 0xff) = int32 (narrow word x) := by
  have hbits := sizeBits_bounds word
  have hmask := @and_size_mask word (x.setWidth 32)
  rw [BitVec.setWidth_setWidth_of_le x (by omega : sizeBits word ≤ 32)] at hmask
  rw [show (if word then 0xffff else 0xff : BitVec 32) = size_mask (sizeBits word) by
    cases word <;> rfl]
  exact hmask

theorem low_int32 (x : BitVec (sizeBits word)) : low word (int32 x) = x := by
  have hbits := sizeBits_bounds word
  rw [low, int32, BitVec.setWidth_setWidth_of_le _ (by omega), BitVec.setWidth_eq]

theorem and_sign32 (x : BitVec 32) :
    decide (x &&& (if word then 0x8000 else 0x80) ≠ 0) = (low word x).msb := by
  have htop := @top_bit_low word x
  have hset := isSet_twoPow x (sizeBits word - 1)
  rw [isSet, show BitVec.twoPow 32 (sizeBits word - 1) =
    (if word then 0x8000 else 0x80 : BitVec 32) by cases word <;> rfl] at hset
  have hbits := sizeBits_bounds word
  rw [BitVec.msb_eq_getLsbD_last, low, BitVec.getLsbD_setWidth, ← hset,
    decide_eq_true (by omega : sizeBits word - 1 < sizeBits word), Bool.true_and]
  simp only [ne_eq, decide_not, bne, beq_eq_decide]

theorem and_ten (x : BitVec 32) : decide (x &&& 0x10 ≠ 0) = (low word x).getLsbD 4 := by
  rw [← isSet_four word x, isSet]
  simp only [ne_eq, decide_not, bne, beq_eq_decide]

theorem narrow_low (x : BitVec 32) : narrow word (x.setWidth 16) = low word x :=
  BitVec.setWidth_setWidth_of_le x (sizeBits_bounds word).2

theorem toNat_carry (cin : Bool) : (if cin then 1 else 0 : BitVec 32).toNat = cin.toNat := by
  cases cin <;> rfl

/-- The sum does not wrap in the 32 bits. -/
theorem toNat_wide (x y : BitVec (sizeBits word)) (cin : Bool) :
    (int32 x + int32 y + (if cin then 1 else 0)).toNat = x.toNat + y.toNat + cin.toNat := by
  have hbits := sizeBits_bounds word
  have hpow : 2 ^ sizeBits word ≤ 2 ^ 16 := Nat.pow_le_pow_right (by omega) hbits.2
  have hx := x.isLt
  have hy := y.isLt
  have hc := cin_le_one cin
  rw [BitVec.toNat_add, BitVec.toNat_add, toNat_int32 x (by omega), toNat_int32 y (by omega),
    toNat_carry, Nat.mod_eq_of_lt (by omega : x.toNat + y.toNat < 2 ^ 32), Nat.mod_eq_of_lt]
  omega

theorem low_wide (x y : BitVec (sizeBits word)) (cin : Bool) :
    low word (int32 x + int32 y + (if cin then 1 else 0)) = addResult x y cin := by
  rw [← BitVec.toNat_inj, low, BitVec.toNat_setWidth, toNat_wide, addResult, BitVec.toNat_ofNat]

theorem low_subtrahend (x y : BitVec (sizeBits word)) (cin : Bool) :
    low word (int32 x - (int32 y + (if cin then 1 else 0))) = subResult x y cin := by
  have hone : low word (if cin then 1 else 0) = BitVec.ofNat _ cin.toNat := by
    cases cin <;> cases word <;> rfl
  rw [low_sub, low_add, low_int32, low_int32, hone, subResult, BitVec.ofNat_add,
    BitVec.ofNat_toNat, BitVec.setWidth_eq]

theorem mask_toNat : (if word then 0xffff else 0xff : BitVec 32).toNat = 2 ^ sizeBits word - 1 := by
  cases word <;> rfl

/-- The carry is what does not fit in the operand. -/
theorem wide_carry (x y : BitVec (sizeBits word)) (cin : Bool) :
    decide ((if word then 0xffff else 0xff) < int32 x + int32 y + (if cin then 1 else 0)) =
      (addFlags x y cin).c := by
  have hpos : 0 < 2 ^ sizeBits word := Nat.two_pow_pos _
  simp only [addFlags, decide_eq_decide, BitVec.lt_def, toNat_wide, mask_toNat]
  omega

theorem borrow_eq (x y : BitVec (sizeBits word)) (cin : Bool) :
    decide (int32 x < int32 y + (if cin then 1 else 0)) = (subFlags x y cin).c := by
  have hbits := sizeBits_bounds word
  simp only [subFlags, decide_eq_decide, BitVec.lt_def]
  rw [toNat_int32 x (by omega)]
  have hpow : 2 ^ sizeBits word ≤ 2 ^ 16 := Nat.pow_le_pow_right (by omega) hbits.2
  have hy := y.isLt
  have hc := cin_le_one cin
  rw [BitVec.toNat_add, toNat_int32 y (by omega), toNat_carry, Nat.mod_eq_of_lt]
  omega

theorem masked_eq (x : BitVec 32) :
    x &&& (if word then 0xffff else 0xff) = int32 (low word x) := by
  rw [show (if word then 0xffff else 0xff : BitVec 32) = size_mask (sizeBits word) by
    cases word <;> rfl]
  exact and_size_mask x

theorem setWidth_int32 (x : BitVec (sizeBits word)) : (int32 x).setWidth 16 = x.setWidth 16 := by
  apply BitVec.eq_of_getLsbD_eq
  intro i hi
  rw [int32, BitVec.getLsbD_setWidth, BitVec.getLsbD_setWidth, BitVec.getLsbD_setWidth,
    decide_eq_true (by omega : i < 32), Bool.true_and]

end

/-- The code of the operation in an opcode. -/
def alu_kind.code : alu_kind → Nat
  | .ALU_ADD => 0
  | .ALU_OR => 1
  | .ALU_ADC => 2
  | .ALU_SBB => 3
  | .ALU_AND => 4
  | .ALU_SUB => 5
  | .ALU_XOR => 6
  | .ALU_CMP => 7

/-- The result of a logical operation. -/
def logic {w : Nat} : alu_kind → BitVec w → BitVec w → BitVec w
  | .ALU_OR, a, b => a ||| b
  | .ALU_AND, a, b => a &&& b
  | .ALU_XOR, a, b => a ^^^ b
  | _, a, _ => a

/-- The flags of a logical operation that gave `r`. -/
def logicFlags {w : Nat} (r : BitVec w) : ArithFlags :=
  ⟨false, evenParity r, false, decide (r = 0), r.msb, false⟩

section

variable (word : Bool) (lhs rhs flags : BitVec 16)

/-- The carry that is taken in. -/
theorem carry_in_eq : (if flags &&& C_FLAG ≠ 0 then 1 else 0 : BitVec 32) =
    if (stored flags).c then 1 else 0 := by
  have hset : (stored flags).c = decide (flags &&& C_FLAG ≠ 0) := by
    change isSet (flags &&& C_FLAG) = _
    simp only [isSet, ne_eq, decide_not, bne, beq_eq_decide]
  rw [hset]
  simp only [decide_eq_true_eq]

/-- The flags that `alu_binary` stores after an operation that gave `r`. -/
theorem stored_binary (r : BitVec (sizeBits word)) (carry overflow aux : Bool) :
    stored (set_szp word ((int32 r).setWidth 16) (set_flag_state A_FLAG aux
      (set_flag_state V_FLAG overflow (set_flag_state C_FLAG carry flags)))) =
      ⟨carry, evenParity r, aux, decide (r = 0), r.msb, overflow⟩ := by
  rw [stored_set_szp, setWidth_int32, narrow_setWidth]
  simp only [set_flag_state_eq, stored_A, stored_V, stored_C]

/-- An addition of the ALU. -/
theorem binary_add (cin : Bool) :
    let a := int32 (narrow word lhs)
    let b := int32 (narrow word rhs)
    let mask : BitVec 32 := if word then 0xffff else 0xff
    let sign : BitVec 32 := if word then 0x8000 else 0x80
    let wide := a + b + (if cin then 1 else 0)
    let result := wide &&& mask
    (result.setWidth 16 = (addResult (narrow word lhs) (narrow word rhs) cin).setWidth 16) ∧
    stored (set_szp word (result.setWidth 16)
      (set_flag_state A_FLAG (decide ((a ^^^ b ^^^ result) &&& 0x10 ≠ 0))
        (set_flag_state V_FLAG (decide ((~~~(a ^^^ b) &&& (a ^^^ result)) &&& sign ≠ 0))
          (set_flag_state C_FLAG (decide (mask < wide)) flags)))) =
      addFlags (narrow word lhs) (narrow word rhs) cin := by
  intro a b mask sign wide result
  have hbits := sizeBits_bounds word
  have hresult : result = int32 (addResult (narrow word lhs) (narrow word rhs) cin) := by
    rw [← low_wide]
    exact masked_eq word wide
  have haux : decide ((a ^^^ b ^^^ result) &&& 0x10 ≠ 0) =
      (addFlags (narrow word lhs) (narrow word rhs) cin).a := by
    rw [and_ten word, low_xor, low_xor, hresult, low_int32, low_int32, low_int32,
      ← add_aux (by omega), BitVec.xor_comm (narrow word lhs), BitVec.xor_comm _ (addResult _ _ _),
      BitVec.xor_assoc]
  have hover : decide ((~~~(a ^^^ b) &&& (a ^^^ result)) &&& sign ≠ 0) =
      (addFlags (narrow word lhs) (narrow word rhs) cin).o := by
    rw [and_sign32 word, low_and, low_xor, BitVec.msb_and, BitVec.msb_xor, hresult,
      add_overflow (by omega)]
    simp only [low, a, b]
    rw [BitVec.setWidth_not (by omega), BitVec.msb_not, decide_eq_true (by omega), Bool.true_and]
    change (!(low word (_ ^^^ _)).msb && ((low word _).msb ^^ (low word _).msb)) = _
    rw [low_xor, BitVec.msb_xor, low_int32, low_int32, low_int32]
  refine ⟨by rw [hresult, setWidth_int32], ?_⟩
  rw [haux, hover, hresult, stored_binary, wide_carry]
  rfl

/-- A subtraction of the ALU. -/
theorem binary_sub (cin : Bool) :
    let a := int32 (narrow word lhs)
    let b := int32 (narrow word rhs)
    let mask : BitVec 32 := if word then 0xffff else 0xff
    let sign : BitVec 32 := if word then 0x8000 else 0x80
    let subtrahend := b + (if cin then 1 else 0)
    let result := (a - subtrahend) &&& mask
    (result.setWidth 16 = (subResult (narrow word lhs) (narrow word rhs) cin).setWidth 16) ∧
    stored (set_szp word (result.setWidth 16)
      (set_flag_state A_FLAG (decide ((a ^^^ b ^^^ result) &&& 0x10 ≠ 0))
        (set_flag_state V_FLAG (decide (((a ^^^ b) &&& (a ^^^ result)) &&& sign ≠ 0))
          (set_flag_state C_FLAG (decide (a < subtrahend)) flags)))) =
      subFlags (narrow word lhs) (narrow word rhs) cin := by
  intro a b mask sign subtrahend result
  have hbits := sizeBits_bounds word
  have hresult : result = int32 (subResult (narrow word lhs) (narrow word rhs) cin) := by
    rw [← low_subtrahend]
    exact masked_eq word (a - subtrahend)
  have haux : decide ((a ^^^ b ^^^ result) &&& 0x10 ≠ 0) =
      (subFlags (narrow word lhs) (narrow word rhs) cin).a := by
    rw [and_ten word, low_xor, low_xor, hresult, low_int32, low_int32, low_int32,
      ← sub_aux (by omega), BitVec.xor_comm (narrow word lhs), BitVec.xor_comm _ (subResult _ _ _),
      BitVec.xor_assoc]
  have hover : decide (((a ^^^ b) &&& (a ^^^ result)) &&& sign ≠ 0) =
      (subFlags (narrow word lhs) (narrow word rhs) cin).o := by
    rw [and_sign32 word, low_and, low_xor, low_xor, BitVec.msb_and, BitVec.msb_xor,
      BitVec.msb_xor, hresult, sub_overflow (by omega), low_int32, low_int32, low_int32]
  refine ⟨by rw [hresult, setWidth_int32], ?_⟩
  rw [haux, hover, hresult, stored_binary, borrow_eq]
  rfl

theorem alu_binary_arith (kind : alu_kind) {k : cpu_808x.Kind} (h : kindOf kind.code = some k) :
    (alu_binary kind lhs rhs word flags).1 =
        (k.result (narrow word lhs) (narrow word rhs) (stored flags).c).setWidth 16 ∧
      stored (alu_binary kind lhs rhs word flags).2 =
        k.flags (narrow word lhs) (narrow word rhs) (stored flags).c := by
  have hadd := binary_add word lhs rhs flags
  have hsub := binary_sub word lhs rhs flags
  have hcarry := carry_in_eq flags
  cases kind <;> cases h <;> simp only [alu_binary, operand_eq, hcarry]
  · exact hadd false
  · exact hadd (stored flags).c
  · exact hsub (stored flags).c
  · exact hsub false
  · exact hsub false

theorem alu_binary_logic (kind : alu_kind) (h : kindOf kind.code = none) :
    (alu_binary kind lhs rhs word flags).1 =
        (logic kind (narrow word lhs) (narrow word rhs)).setWidth 16 ∧
      stored (alu_binary kind lhs rhs word flags).2 =
        logicFlags (logic kind (narrow word lhs) (narrow word rhs)) := by
  have hr : ∀ r : BitVec (sizeBits word), (int32 r).setWidth 16 = r.setWidth 16 ∧
      stored (set_szp word ((int32 r).setWidth 16) (set_flag_state A_FLAG false
        (set_flag_state V_FLAG false (set_flag_state C_FLAG false flags)))) = logicFlags r :=
    fun r => ⟨setWidth_int32 word r, stored_binary word flags r false false false⟩
  cases kind <;> cases h <;> simp only [alu_binary, operand_eq, logic]
  · rw [int32, int32, ← BitVec.setWidth_or]
    exact hr _
  · rw [int32, int32, ← BitVec.setWidth_and]
    exact hr _
  · rw [int32, int32, ← BitVec.setWidth_xor]
    exact hr _

end

/-! ## One place of the shifter -/

/-- The shift or rotate that the field of the opcode names. The undocumented one is none. -/
def shiftOf (op : BitVec 3) : Option bit_shift.Kind :=
  match op.toNat with
  | 0 => some .rol
  | 1 => some .ror
  | 2 => some .rcl
  | 3 => some .rcr
  | 4 => some .shl
  | 5 => some .shr
  | 7 => some .sar
  | _ => none

/-- The field of the opcode that names it. -/
def fieldOf : bit_shift.Kind → BitVec 3
  | .rol => 0
  | .ror => 1
  | .rcl => 2
  | .rcr => 3
  | .shl => 4
  | .shr => 5
  | .sar => 7

theorem fieldOf_shiftOf {op : BitVec 3} {k : bit_shift.Kind} (h : shiftOf op = some k) :
    op = fieldOf k := by
  unfold shiftOf at h
  split at h <;> rename_i hop <;> cases h <;> exact BitVec.eq_of_toNat_eq hop

/-- The loop does not touch the overflow. -/
def holdsOverflow : bit_shift.Kind → Bool
  | .shr | .sar => true
  | _ => false

/-- A shifted word, as the locals of the loop hold it. -/
def toIteration {word : Bool} (k : bit_shift.Kind) (of : Bool)
    (s : bit_shift.Shifted (sizeBits word)) : Iteration :=
  ⟨s.value.setWidth 16, s.carry, if holdsOverflow k then of else s.changed⟩

section

variable {word : Bool} (b : Bool) (x : BitVec (sizeBits word))

theorem up_eq :
    (x.setWidth 16 <<< 1 ||| (if b then 1 else 0)) &&& maskOf word =
      (bit_shift.intoBottom b x).setWidth 16 := by
  have hbits := sizeBits_bounds word
  have hup := @bit_shift.setWidth_up (sizeBits word) b 16 (by omega) hbits.2 (x.setWidth 16)
  rw [show BitVec.twoPow 16 0 = 1 from rfl] at hup
  rw [and_mask]
  refine congrArg _ (hup.trans ?_)
  exact congrArg _ (narrow_setWidth word x)

/-- The carry goes in after the mask. -/
theorem up_masked_eq :
    (x.setWidth 16 <<< 1 &&& maskOf word) ||| (if b then 1 else 0) =
      (bit_shift.intoBottom b x).setWidth 16 := by
  have hbit : (if b then 1 else 0 : BitVec 16) = (if b then 1 else 0) &&& maskOf word := by
    cases b <;> cases word <;> rfl
  rw [← up_eq, hbit, ← BitVec.and_or_distrib_right, ← hbit]

theorem up_nothing_eq :
    x.setWidth 16 <<< 1 &&& maskOf word = (bit_shift.intoBottom false x).setWidth 16 := by
  rw [← up_eq, if_neg Bool.false_ne_true]
  exact congrArg (· &&& maskOf word) BitVec.or_zero.symm

theorem down_eq :
    x.setWidth 16 >>> 1 ||| (if b then signBit word else 0) =
      (bit_shift.intoTop b x).setWidth 16 := by
  have hbits := sizeBits_bounds word
  rw [signBit_eq]
  exact bit_shift.setWidth_down (by omega) hbits.2

theorem down_nothing_eq : x.setWidth 16 >>> 1 = (bit_shift.intoTop false x).setWidth 16 :=
  (BitVec.or_zero).symm.trans (down_eq false x)

theorem sign_eq :
    x.setWidth 16 &&& signBit word = if x.msb then signBit word else 0 := by
  have hbits := sizeBits_bounds word
  rw [signBit_eq, BitVec.and_twoPow, BitVec.getLsbD_setWidth,
    decide_eq_true (by omega : sizeBits word - 1 < 16), Bool.true_and,
    BitVec.msb_eq_getLsbD_last]
  rfl

theorem top_eq : decide (x.setWidth 16 &&& signBit word ≠ 0) = x.msb := by
  rw [and_signBit, narrow_setWidth]

theorem bottom_eq : decide (x.setWidth 16 &&& 1 ≠ 0) = x.getLsbD 0 := by
  rw [and_one word, narrow_setWidth]

theorem digit_eq : decide (x.setWidth 16 &&& 0x10 ≠ 0) = x.getLsbD 4 := by
  have hset := isSet_twoPow (x.setWidth 16) 4
  rw [isSet, BitVec.getLsbD_setWidth, decide_eq_true (by decide : 4 < 16), Bool.true_and] at hset
  rw [← hset]
  simp only [ne_eq, decide_not, bne, beq_eq_decide]
  rfl

/-- Below the top of a word that went down is the sign that was. -/
theorem next_eq :
    decide ((bit_shift.intoTop b x).setWidth 16 &&& (signBit word >>> 1) ≠ 0) = x.msb := by
  have hbits := sizeBits_bounds word
  have hset := isSet_twoPow ((bit_shift.intoTop b x).setWidth 16) (sizeBits word - 2)
  rw [isSet, show BitVec.twoPow 16 (sizeBits word - 2) = signBit word >>> 1 by
    cases word <;> rfl] at hset
  rw [BitVec.getLsbD_setWidth, decide_eq_true (by omega : sizeBits word - 2 < 16), Bool.true_and,
    bit_shift.next_intoTop (by omega)] at hset
  rw [← hset]
  simp only [ne_eq, decide_not, bne, beq_eq_decide]

end

section

variable {word : Bool} {op : BitVec 3} {k : bit_shift.Kind} (of : Bool)
  (s : bit_shift.Shifted (sizeBits word))

theorem iterate_spec (h : shiftOf op = some k) :
    iterate op (maskOf word) (signBit word) (toIteration k of s) = toIteration k of (k.step s) := by
  have hbits := sizeBits_bounds word
  have hmsb : ∀ b, (bit_shift.intoTop b s.value).msb = b := fun b =>
    bit_shift.msb_intoTop (by omega)
  unfold shiftOf at h
  unfold iterate
  generalize op.toNat = n at h ⊢
  split at h <;> cases h <;> simp only [Bool.bne_eq_xor] <;>
    dsimp +instances only [toIteration]
  · rw [top_eq, up_eq, top_eq]
    rfl
  · rw [bottom_eq, down_eq, down_nothing_eq, next_eq, Bool.xor_comm]
    exact congrArg (Iteration.mk _ _) (congrArg (s.value.msb ^^ ·) (hmsb _).symm)
  · rw [top_eq, up_masked_eq, top_eq]
    rfl
  · rw [bottom_eq, down_eq, down_nothing_eq, next_eq, Bool.xor_comm]
    exact congrArg (Iteration.mk _ _) (congrArg (s.value.msb ^^ ·) (hmsb _).symm)
  · rw [top_eq, up_nothing_eq, top_eq]
    rfl
  · rw [bottom_eq, down_nothing_eq]
    rfl
  · rw [bottom_eq, sign_eq, down_eq]
    rfl

/-- The path of one place is one turn of the loop. -/
theorem rotateOnce_eq (h4 : op < 4) :
    rotateOnce op (maskOf word) (signBit word) (toIteration k of s) =
      iterate op (maskOf word) (signBit word) (toIteration k of s) := by
  have hbits := sizeBits_bounds word
  have hmsb : ∀ b, (bit_shift.intoTop b s.value).msb = b := fun b =>
    bit_shift.msb_intoTop (by omega)
  have hop : op.toNat < 4 := h4
  unfold rotateOnce iterate
  split <;> rename_i hop' <;> simp only [hop'] <;> dsimp +instances only [toIteration]
  · rw [bottom_eq, down_eq, down_nothing_eq, next_eq, next_eq, top_eq, hmsb]
  · rw [up_eq, up_masked_eq]
  · rw [down_eq, down_nothing_eq, next_eq, next_eq, top_eq, hmsb]
  · simp only [imp_false] at *
    omega

/-- So many turns of the loop are so many places. -/
theorem loop_spec (h : shiftOf op = some k) (n : Nat) :
    (iterate op (maskOf word) (signBit word))^[n] (toIteration k of s) =
      toIteration k of (k.run n s) :=
  ((show Function.Semiconj (toIteration k of) k.step
    (iterate op (maskOf word) (signBit word)) from
    fun s => (iterate_spec of s h).symm).iterate_right n s).symm

end

/-! ## The shifter -/

/-- The operation has the flags of its result, and is not a rotate. -/
def isShift : bit_shift.Kind → Bool
  | .shl | .shr | .sar => true
  | _ => false

/-- The flags of a shift that gave `s`. -/
def shiftFlags {w : Nat} (k : bit_shift.Kind) (s : bit_shift.Shifted w) : ArithFlags :=
  ⟨s.carry, evenParity s.value, decide (k = .shl) && s.value.getLsbD 4, decide (s.value = 0),
    s.value.msb, s.changed⟩

/-- An operand with the flags that a shift starts from. -/
def shiftStart (word : Bool) (value flags : BitVec 16) : bit_shift.Shifted (sizeBits word) :=
  ⟨narrow word value, (stored flags).c, (stored flags).o⟩

section

variable {word : Bool} {op : BitVec 3} {k : bit_shift.Kind} (value flags : BitVec 16)

/-- The locals before the loop. -/
theorem start_eq :
    (⟨value &&& maskOf word, decide (flags &&& C_FLAG ≠ 0), decide (flags &&& V_FLAG ≠ 0)⟩ :
      Iteration) = toIteration k (stored flags).o (shiftStart word value flags) := by
  have hset : ∀ flag, isSet (flags &&& flag) = decide (flags &&& flag ≠ 0) := fun flag => by
    simp only [isSet, ne_eq, decide_not, bne, beq_eq_decide]
  rw [and_mask, ← hset, ← hset]
  change _ = Iteration.mk _ _ (if holdsOverflow k then (stored flags).o else (stored flags).o)
  rw [ite_self]
  rfl

/-- A rotate, by the path of one place or by the loop. -/
theorem rotate_eq (h : shiftOf op = some k) (hk : isShift k = false) (count : BitVec 8)
    (hcount : count ≠ 0) :
    shift_rotate op value count word flags =
      let s := k.run count.toNat (shiftStart word value flags)
      (s.value.setWidth 16,
        set_flag_state V_FLAG s.changed (set_flag_state C_FLAG s.carry flags)) := by
  have hloop := loop_spec (stored flags).o (shiftStart word value flags) h count.toNat
  have honce := @rotateOnce_eq word op k (stored flags).o (shiftStart word value flags)
  rw [← start_eq] at hloop honce
  obtain rfl := fieldOf_shiftOf h
  have hlt : fieldOf k < 4 := by cases k <;> first | decide | cases hk
  have h6 : fieldOf k ≠ 6 := by cases k <;> decide
  unfold shift_rotate
  simp only [hcount, h6, if_false, hlt, and_true]
  rw [show (if word then 0xffff else 0x00ff : BitVec 16) = maskOf word from rfl,
    show (if word then 0x8000 else 0x0080 : BitVec 16) = signBit word from rfl]
  by_cases h1 : count = 1
  · subst h1
    rw [if_pos rfl, honce hlt]
    change (iterate _ _ _ _) = _ at hloop
    rw [hloop]
    cases k <;> first | rfl | cases hk
  · rw [if_neg h1, hloop]
    cases k <;> first | rfl | cases hk

/-- A shift, by the loop. -/
theorem shift_eq (h : shiftOf op = some k) (hk : isShift k = true) (count : BitVec 8)
    (hcount : count ≠ 0) :
    shift_rotate op value count word flags =
      let s := k.run count.toNat (shiftStart word value flags)
      (s.value.setWidth 16, set_szp word (s.value.setWidth 16)
        (set_flag_state A_FLAG (decide (k = .shl) && s.value.getLsbD 4)
          (set_flag_state V_FLAG s.changed (set_flag_state C_FLAG s.carry flags)))) := by
  have hloop := loop_spec (stored flags).o (shiftStart word value flags) h count.toNat
  rw [← start_eq] at hloop
  obtain rfl := fieldOf_shiftOf h
  have hlt : ¬fieldOf k < 4 := by cases k <;> first | decide | cases hk
  have h6 : fieldOf k ≠ 6 := by cases k <;> decide
  unfold shift_rotate
  simp only [hcount, h6, if_false, hlt, and_false]
  rw [show (if word then 0xffff else 0x00ff : BitVec 16) = maskOf word from rfl,
    show (if word then 0x8000 else 0x0080 : BitVec 16) = signBit word from rfl, hloop]
  have hbits := sizeBits_bounds word
  obtain ⟨n, hn⟩ : ∃ n, count.toNat = n + 1 :=
    Nat.exists_eq_succ_of_ne_zero fun h0 => hcount (BitVec.eq_of_toNat_eq h0)
  rw [hn]
  cases k
  case shl => rw [← digit_eq]; rfl
  case shr =>
    have hone : decide (count = 1) = decide (n = 0) := by
      rw [decide_eq_decide, ← BitVec.toNat_inj, hn]
      change n + 1 = 1 ↔ n = 0
      omega
    rw [bit_shift.shr_changed (by omega)]
    simp only [fieldOf, hone, and_mask, top_eq]
    rfl
  case sar =>
    rw [bit_shift.sar_changed (by omega)]
    rfl
  all_goals cases hk

theorem stored_shift (s : bit_shift.Shifted (sizeBits word)) :
    stored (set_szp word (s.value.setWidth 16)
      (set_flag_state A_FLAG (decide (k = .shl) && s.value.getLsbD 4)
        (set_flag_state V_FLAG s.changed (set_flag_state C_FLAG s.carry flags)))) =
      shiftFlags k s := by
  rw [stored_set_szp, narrow_setWidth]
  simp only [set_flag_state_eq, stored_A, stored_V, stored_C]
  rfl

/-- What the shifter of the core does in so many places. -/
theorem shift_rotate_spec (h : shiftOf op = some k) (count : BitVec 8) (hcount : count ≠ 0) :
    let s := k.run count.toNat (shiftStart word value flags)
    (shift_rotate op value count word flags).1 = s.value.setWidth 16 ∧
      (stored (shift_rotate op value count word flags).2).c = s.carry ∧
      (stored (shift_rotate op value count word flags).2).o = s.changed ∧
      (isShift k = true → stored (shift_rotate op value count word flags).2 = shiftFlags k s) := by
  cases hk : isShift k with
  | false =>
    rw [rotate_eq value flags h hk count hcount]
    refine ⟨rfl, ?_, ?_, fun hshift => Bool.noConfusion hshift⟩
    all_goals simp only [set_flag_state_eq, stored_V, stored_C]
  | true =>
    have hflags := stored_shift (k := k) flags (k.run count.toNat (shiftStart word value flags))
    rw [shift_eq value flags h hk count hcount]
    exact ⟨rfl, congrArg ArithFlags.c hflags, congrArg ArithFlags.o hflags, fun _ => hflags⟩

end

end blumach.m808x
