-- The lazy x86 flags of `cpu/x86_flags.h`. An instruction stores its operands
-- and result with a code for the operation, and the flags are computed from
-- them when they are read. The functions here are those of the build with the
-- new dynarec, and the eager `setadc` and `setsbc` of the other build.
import BluMach.ArithFlags

namespace blumach.x86_flags

open arith_flags

/-! ## The state -/

inductive FlagsOp where
  | FLAGS_UNKNOWN
  | FLAGS_ZN8 | FLAGS_ZN16 | FLAGS_ZN32
  | FLAGS_ADD8 | FLAGS_ADD16 | FLAGS_ADD32
  | FLAGS_SUB8 | FLAGS_SUB16 | FLAGS_SUB32
  | FLAGS_SHL8 | FLAGS_SHL16 | FLAGS_SHL32
  | FLAGS_SHR8 | FLAGS_SHR16 | FLAGS_SHR32
  | FLAGS_SAR8 | FLAGS_SAR16 | FLAGS_SAR32
  | FLAGS_ROL8 | FLAGS_ROL16 | FLAGS_ROL32
  | FLAGS_ROR8 | FLAGS_ROR16 | FLAGS_ROR32
  | FLAGS_INC8 | FLAGS_INC16 | FLAGS_INC32
  | FLAGS_DEC8 | FLAGS_DEC16 | FLAGS_DEC32
  | FLAGS_ADC8 | FLAGS_ADC16 | FLAGS_ADC32
  | FLAGS_SBC8 | FLAGS_SBC16 | FLAGS_SBC32
deriving DecidableEq, Repr

/-- The fields of `cpu_state` that hold the flags. -/
structure CpuState where
  flags_op : FlagsOp
  flags_res : BitVec 32
  flags_op1 : BitVec 32
  flags_op2 : BitVec 32
  flags : BitVec 16
deriving DecidableEq, Repr

def C_FLAG : BitVec 16 := 0x0001
def P_FLAG : BitVec 16 := 0x0004
def A_FLAG : BitVec 16 := 0x0010
def Z_FLAG : BitVec 16 := 0x0040
def N_FLAG : BitVec 16 := 0x0080
def V_FLAG : BitVec 16 := 0x0800

/-! ## The tables of `makeznptable` -/

/-- The count `d` of both loops. The loop for the 16-bit table reads the low
byte too. -/
def onesOfByte {w : Nat} (c : BitVec w) : Nat :=
  (List.range 8).foldl (fun d e => if c.getLsbD e then d + 1 else d) 0

def znptable8 (c : BitVec 8) : BitVec 16 :=
  (if onesOfByte c % 2 = 1 then 0 else P_FLAG) |||
    (if c = 0 then Z_FLAG else 0) ||| (if c &&& 0x80 ≠ 0 then N_FLAG else 0)

def znptable16 (c : BitVec 16) : BitVec 16 :=
  (if onesOfByte c % 2 = 1 then 0 else P_FLAG) |||
    (if c = 0 then Z_FLAG else 0) ||| (if c &&& 0x8000 ≠ 0 then N_FLAG else 0)

/-! ## The flag functions

Each C function returns an int that its callers only test, so it is a `Bool`
here. -/

/-- The truth value of a C integer. -/
def isSet {w : Nat} (x : BitVec w) : Bool := x != 0

def ZF_SET (st : CpuState) : Bool :=
  match st.flags_op with
  | .FLAGS_ZN8 | .FLAGS_ZN16 | .FLAGS_ZN32 | .FLAGS_ADD8 | .FLAGS_ADD16 | .FLAGS_ADD32
  | .FLAGS_SUB8 | .FLAGS_SUB16 | .FLAGS_SUB32 | .FLAGS_SHL8 | .FLAGS_SHL16 | .FLAGS_SHL32
  | .FLAGS_SHR8 | .FLAGS_SHR16 | .FLAGS_SHR32 | .FLAGS_SAR8 | .FLAGS_SAR16 | .FLAGS_SAR32
  | .FLAGS_INC8 | .FLAGS_INC16 | .FLAGS_INC32 | .FLAGS_DEC8 | .FLAGS_DEC16 | .FLAGS_DEC32
  | .FLAGS_ADC8 | .FLAGS_ADC16 | .FLAGS_ADC32 | .FLAGS_SBC8 | .FLAGS_SBC16 | .FLAGS_SBC32 =>
    !isSet st.flags_res
  | .FLAGS_ROL8 | .FLAGS_ROL16 | .FLAGS_ROL32 | .FLAGS_ROR8 | .FLAGS_ROR16 | .FLAGS_ROR32
  | .FLAGS_UNKNOWN => isSet (st.flags &&& Z_FLAG)

def NF_SET (st : CpuState) : Bool :=
  match st.flags_op with
  | .FLAGS_ZN8 | .FLAGS_ADD8 | .FLAGS_SUB8 | .FLAGS_SHL8 | .FLAGS_SHR8 | .FLAGS_SAR8
  | .FLAGS_INC8 | .FLAGS_DEC8 | .FLAGS_ADC8 | .FLAGS_SBC8 => isSet (st.flags_res &&& 0x80)
  | .FLAGS_ZN16 | .FLAGS_ADD16 | .FLAGS_SUB16 | .FLAGS_SHL16 | .FLAGS_SHR16 | .FLAGS_SAR16
  | .FLAGS_INC16 | .FLAGS_DEC16 | .FLAGS_ADC16 | .FLAGS_SBC16 => isSet (st.flags_res &&& 0x8000)
  | .FLAGS_ZN32 | .FLAGS_ADD32 | .FLAGS_SUB32 | .FLAGS_SHL32 | .FLAGS_SHR32 | .FLAGS_SAR32
  | .FLAGS_INC32 | .FLAGS_DEC32 | .FLAGS_ADC32 | .FLAGS_SBC32 =>
    isSet (st.flags_res &&& 0x80000000)
  | .FLAGS_ROL8 | .FLAGS_ROL16 | .FLAGS_ROL32 | .FLAGS_ROR8 | .FLAGS_ROR16 | .FLAGS_ROR32
  | .FLAGS_UNKNOWN => isSet (st.flags &&& N_FLAG)

def PF_SET (st : CpuState) : Bool :=
  match st.flags_op with
  | .FLAGS_ZN8 | .FLAGS_ZN16 | .FLAGS_ZN32 | .FLAGS_ADD8 | .FLAGS_ADD16 | .FLAGS_ADD32
  | .FLAGS_SUB8 | .FLAGS_SUB16 | .FLAGS_SUB32 | .FLAGS_SHL8 | .FLAGS_SHL16 | .FLAGS_SHL32
  | .FLAGS_SHR8 | .FLAGS_SHR16 | .FLAGS_SHR32 | .FLAGS_SAR8 | .FLAGS_SAR16 | .FLAGS_SAR32
  | .FLAGS_INC8 | .FLAGS_INC16 | .FLAGS_INC32 | .FLAGS_DEC8 | .FLAGS_DEC16 | .FLAGS_DEC32
  | .FLAGS_ADC8 | .FLAGS_ADC16 | .FLAGS_ADC32 | .FLAGS_SBC8 | .FLAGS_SBC16 | .FLAGS_SBC32 =>
    isSet (znptable8 (st.flags_res.setWidth 8) &&& P_FLAG)
  | .FLAGS_ROL8 | .FLAGS_ROL16 | .FLAGS_ROL32 | .FLAGS_ROR8 | .FLAGS_ROR16 | .FLAGS_ROR32
  | .FLAGS_UNKNOWN => isSet (st.flags &&& P_FLAG)

def VF_SET (st : CpuState) : Bool :=
  let op1 := st.flags_op1
  let op2 := st.flags_op2
  let res := st.flags_res
  match st.flags_op with
  | .FLAGS_ZN8 | .FLAGS_ZN16 | .FLAGS_ZN32 | .FLAGS_SAR8 | .FLAGS_SAR16 | .FLAGS_SAR32 => false
  | .FLAGS_ADC8 | .FLAGS_ADD8 | .FLAGS_INC8 =>
    !isSet ((op1 ^^^ op2) &&& 0x80) && isSet ((op1 ^^^ res) &&& 0x80)
  | .FLAGS_ADC16 | .FLAGS_ADD16 | .FLAGS_INC16 =>
    !isSet ((op1 ^^^ op2) &&& 0x8000) && isSet ((op1 ^^^ res) &&& 0x8000)
  | .FLAGS_ADC32 | .FLAGS_ADD32 | .FLAGS_INC32 =>
    !isSet ((op1 ^^^ op2) &&& 0x80000000) && isSet ((op1 ^^^ res) &&& 0x80000000)
  | .FLAGS_SBC8 | .FLAGS_SUB8 | .FLAGS_DEC8 =>
    isSet ((op1 ^^^ op2) &&& (op1 ^^^ res) &&& 0x80)
  | .FLAGS_SBC16 | .FLAGS_SUB16 | .FLAGS_DEC16 =>
    isSet ((op1 ^^^ op2) &&& (op1 ^^^ res) &&& 0x8000)
  | .FLAGS_SBC32 | .FLAGS_SUB32 | .FLAGS_DEC32 =>
    isSet ((op1 ^^^ op2) &&& (op1 ^^^ res) &&& 0x80000000)
  | .FLAGS_SHL8 => isSet (((op1 <<< op2) ^^^ (op1 <<< (op2 - 1))) &&& 0x80)
  | .FLAGS_SHL16 => isSet (((op1 <<< op2) ^^^ (op1 <<< (op2 - 1))) &&& 0x8000)
  | .FLAGS_SHL32 => isSet (((op1 <<< op2) ^^^ (op1 <<< (op2 - 1))) &&& 0x80000000)
  | .FLAGS_SHR8 => op2 == 1 && isSet (op1 &&& 0x80)
  | .FLAGS_SHR16 => op2 == 1 && isSet (op1 &&& 0x8000)
  | .FLAGS_SHR32 => op2 == 1 && isSet (op1 &&& 0x80000000)
  | .FLAGS_ROL8 => isSet ((res ^^^ (res >>> 7)) &&& 1)
  | .FLAGS_ROL16 => isSet ((res ^^^ (res >>> 15)) &&& 1)
  | .FLAGS_ROL32 => isSet ((res ^^^ (res >>> 31)) &&& 1)
  | .FLAGS_ROR8 => isSet ((res ^^^ (res >>> 1)) &&& 0x40)
  | .FLAGS_ROR16 => isSet ((res ^^^ (res >>> 1)) &&& 0x4000)
  | .FLAGS_ROR32 => isSet ((res ^^^ (res >>> 1)) &&& 0x40000000)
  | .FLAGS_UNKNOWN => isSet (st.flags &&& V_FLAG)

def AF_SET (st : CpuState) : Bool :=
  let op1 := st.flags_op1
  let op2 := st.flags_op2
  let res := st.flags_res
  match st.flags_op with
  | .FLAGS_ZN8 | .FLAGS_ZN16 | .FLAGS_ZN32 | .FLAGS_SHL8 | .FLAGS_SHL16 | .FLAGS_SHL32
  | .FLAGS_SHR8 | .FLAGS_SHR16 | .FLAGS_SHR32 | .FLAGS_SAR8 | .FLAGS_SAR16 | .FLAGS_SAR32 => false
  | .FLAGS_ADD8 | .FLAGS_ADD16 | .FLAGS_ADD32 | .FLAGS_INC8 | .FLAGS_INC16 | .FLAGS_INC32 =>
    isSet (((op1 &&& 0xf) + (op2 &&& 0xf)) &&& 0x10)
  | .FLAGS_ADC8 =>
    decide (res &&& 0xf < op1 &&& 0xf) || ((res &&& 0xf) == (op1 &&& 0xf) && op2 == 0xff)
  | .FLAGS_ADC16 =>
    decide (res &&& 0xf < op1 &&& 0xf) || ((res &&& 0xf) == (op1 &&& 0xf) && op2 == 0xffff)
  | .FLAGS_ADC32 =>
    decide (res &&& 0xf < op1 &&& 0xf) || ((res &&& 0xf) == (op1 &&& 0xf) && op2 == 0xffffffff)
  | .FLAGS_SUB8 | .FLAGS_SUB16 | .FLAGS_SUB32 | .FLAGS_DEC8 | .FLAGS_DEC16 | .FLAGS_DEC32 =>
    isSet (((op1 &&& 0xf) - (op2 &&& 0xf)) &&& 0x10)
  | .FLAGS_SBC8 | .FLAGS_SBC16 | .FLAGS_SBC32 =>
    decide (op1 &&& 0xf < op2 &&& 0xf) || ((op1 &&& 0xf) == (op2 &&& 0xf) && (res &&& 0xf) != 0)
  | .FLAGS_ROL8 | .FLAGS_ROL16 | .FLAGS_ROL32 | .FLAGS_ROR8 | .FLAGS_ROR16 | .FLAGS_ROR32
  | .FLAGS_UNKNOWN => isSet (st.flags &&& A_FLAG)

def CF_SET (st : CpuState) : Bool :=
  let op1 := st.flags_op1
  let op2 := st.flags_op2
  let res := st.flags_res
  match st.flags_op with
  | .FLAGS_ADD8 => isSet ((op1 + op2) &&& 0x100)
  | .FLAGS_ADD16 => isSet ((op1 + op2) &&& 0x10000)
  | .FLAGS_ADD32 => decide (res < op1)
  | .FLAGS_ADC8 => decide (res < op1) || (res == op1 && op2 == 0xff)
  | .FLAGS_ADC16 => decide (res < op1) || (res == op1 && op2 == 0xffff)
  | .FLAGS_ADC32 => decide (res < op1) || (res == op1 && op2 == 0xffffffff)
  | .FLAGS_SUB8 | .FLAGS_SUB16 | .FLAGS_SUB32 => decide (op1 < op2)
  | .FLAGS_SBC8 | .FLAGS_SBC16 | .FLAGS_SBC32 => decide (op1 < op2) || (op1 == op2 && res != 0)
  | .FLAGS_SHL8 => isSet ((op1 <<< (op2 - 1)) &&& 0x80)
  | .FLAGS_SHL16 => isSet ((op1 <<< (op2 - 1)) &&& 0x8000)
  | .FLAGS_SHL32 => isSet ((op1 <<< (op2 - 1)) &&& 0x80000000)
  | .FLAGS_SHR8 | .FLAGS_SHR16 | .FLAGS_SHR32 => isSet ((op1 >>> (op2 - 1)) &&& 1)
  | .FLAGS_SAR8 => isSet ((((op1.setWidth 8).signExtend 32).sshiftRight' (op2 - 1)) &&& 1)
  | .FLAGS_SAR16 => isSet ((((op1.setWidth 16).signExtend 32).sshiftRight' (op2 - 1)) &&& 1)
  | .FLAGS_SAR32 => isSet ((op1.sshiftRight' (op2 - 1)) &&& 1)
  | .FLAGS_ZN8 | .FLAGS_ZN16 | .FLAGS_ZN32 => false
  | .FLAGS_ROL8 | .FLAGS_ROL16 | .FLAGS_ROL32 => isSet (res &&& 1)
  | .FLAGS_ROR8 => isSet (res &&& 0x80)
  | .FLAGS_ROR16 => isSet (res &&& 0x8000)
  | .FLAGS_ROR32 => isSet (res &&& 0x80000000)
  | .FLAGS_DEC8 | .FLAGS_DEC16 | .FLAGS_DEC32 | .FLAGS_INC8 | .FLAGS_INC16 | .FLAGS_INC32
  | .FLAGS_UNKNOWN => isSet (st.flags &&& C_FLAG)

/-! ## The rebuilds -/

/-- `if (cond) tempf |= flag;` -/
def orIf (tempf : BitVec 16) (cond : Bool) (flag : BitVec 16) : BitVec 16 :=
  if cond then tempf ||| flag else tempf

def flags_rebuild (st : CpuState) : CpuState :=
  if st.flags_op ≠ .FLAGS_UNKNOWN then
    let tempf := orIf 0 (CF_SET st) C_FLAG
    let tempf := orIf tempf (PF_SET st) P_FLAG
    let tempf := orIf tempf (AF_SET st) A_FLAG
    let tempf := orIf tempf (ZF_SET st) Z_FLAG
    let tempf := orIf tempf (NF_SET st) N_FLAG
    let tempf := orIf tempf (VF_SET st) V_FLAG
    { st with flags := (st.flags &&& ~~~0x8d5) ||| tempf, flags_op := .FLAGS_UNKNOWN }
  else st

def flags_rebuild_zpna (st : CpuState) : CpuState :=
  if st.flags_op ≠ .FLAGS_UNKNOWN then
    let tempf := orIf 0 (PF_SET st) P_FLAG
    let tempf := orIf tempf (AF_SET st) A_FLAG
    let tempf := orIf tempf (ZF_SET st) Z_FLAG
    let tempf := orIf tempf (NF_SET st) N_FLAG
    { st with flags := (st.flags &&& ~~~0xd4) ||| tempf, flags_op := .FLAGS_UNKNOWN }
  else st

def flags_rebuild_c (st : CpuState) : CpuState :=
  if st.flags_op ≠ .FLAGS_UNKNOWN then
    if CF_SET st then { st with flags := st.flags ||| C_FLAG }
    else { st with flags := st.flags &&& ~~~C_FLAG }
  else st

/-! ## The operations that set the flags -/

/-- The promotion of an operand to a C int. -/
def int32 {w : Nat} (x : BitVec w) : BitVec 32 := x.setWidth 32

/-- The four stores that each of the functions below makes. -/
def lazySet (op : FlagsOp) (op1 op2 res : BitVec 32) (st : CpuState) : CpuState :=
  { st with flags_op1 := op1, flags_op2 := op2, flags_res := res, flags_op := op }

def setznp8 (val : BitVec 8) (st : CpuState) : CpuState :=
  { st with flags_op := .FLAGS_ZN8, flags_res := int32 val }

def setznp16 (val : BitVec 16) (st : CpuState) : CpuState :=
  { st with flags_op := .FLAGS_ZN16, flags_res := int32 val }

def setznp32 (val : BitVec 32) (st : CpuState) : CpuState :=
  { st with flags_op := .FLAGS_ZN32, flags_res := val }

def set_flags_shift (op : FlagsOp) (orig shift res : BitVec 32) (st : CpuState) : CpuState :=
  lazySet op orig shift res st

def set_flags_rotate (op : FlagsOp) (res : BitVec 32) (st : CpuState) : CpuState :=
  { st with flags_op := op, flags_res := res }

def setadd8 (a b : BitVec 8) : CpuState → CpuState :=
  lazySet .FLAGS_ADD8 (int32 a) (int32 b) ((int32 a + int32 b) &&& 0xff)

def setadd16 (a b : BitVec 16) : CpuState → CpuState :=
  lazySet .FLAGS_ADD16 (int32 a) (int32 b) ((int32 a + int32 b) &&& 0xffff)

def setadd32 (a b : BitVec 32) : CpuState → CpuState :=
  lazySet .FLAGS_ADD32 a b (a + b)

def setadd8nc (a b : BitVec 8) (st : CpuState) : CpuState :=
  lazySet .FLAGS_INC8 (int32 a) (int32 b) ((int32 a + int32 b) &&& 0xff) (flags_rebuild_c st)

def setadd16nc (a b : BitVec 16) (st : CpuState) : CpuState :=
  lazySet .FLAGS_INC16 (int32 a) (int32 b) ((int32 a + int32 b) &&& 0xffff) (flags_rebuild_c st)

def setadd32nc (a b : BitVec 32) (st : CpuState) : CpuState :=
  lazySet .FLAGS_INC32 a b (a + b) (flags_rebuild_c st)

def setsub8 (a b : BitVec 8) : CpuState → CpuState :=
  lazySet .FLAGS_SUB8 (int32 a) (int32 b) ((int32 a - int32 b) &&& 0xff)

def setsub16 (a b : BitVec 16) : CpuState → CpuState :=
  lazySet .FLAGS_SUB16 (int32 a) (int32 b) ((int32 a - int32 b) &&& 0xffff)

def setsub32 (a b : BitVec 32) : CpuState → CpuState :=
  lazySet .FLAGS_SUB32 a b (a - b)

def setsub8nc (a b : BitVec 8) (st : CpuState) : CpuState :=
  lazySet .FLAGS_DEC8 (int32 a) (int32 b) ((int32 a - int32 b) &&& 0xff) (flags_rebuild_c st)

def setsub16nc (a b : BitVec 16) (st : CpuState) : CpuState :=
  lazySet .FLAGS_DEC16 (int32 a) (int32 b) ((int32 a - int32 b) &&& 0xffff) (flags_rebuild_c st)

def setsub32nc (a b : BitVec 32) (st : CpuState) : CpuState :=
  lazySet .FLAGS_DEC32 a b (a - b) (flags_rebuild_c st)

/-! ## Add and subtract with carry, lazy

`tempc` is the global that holds the carry in, 0 or 1. -/

/-- `tempc` as a C int. -/
def tempcInt (tempc : Bool) : BitVec 32 := BitVec.ofNat 32 tempc.toNat

def setadc8 (tempc : Bool) (a b : BitVec 8) : CpuState → CpuState :=
  lazySet .FLAGS_ADC8 (int32 a) (int32 b) ((int32 a + int32 b + tempcInt tempc) &&& 0xff)

def setadc16 (tempc : Bool) (a b : BitVec 16) : CpuState → CpuState :=
  lazySet .FLAGS_ADC16 (int32 a) (int32 b) ((int32 a + int32 b + tempcInt tempc) &&& 0xffff)

def setadc32 (tempc : Bool) (a b : BitVec 32) : CpuState → CpuState :=
  lazySet .FLAGS_ADC32 a b (a + b + tempcInt tempc)

def setsbc8 (tempc : Bool) (a b : BitVec 8) : CpuState → CpuState :=
  lazySet .FLAGS_SBC8 (int32 a) (int32 b) ((int32 a - (int32 b + tempcInt tempc)) &&& 0xff)

def setsbc16 (tempc : Bool) (a b : BitVec 16) : CpuState → CpuState :=
  lazySet .FLAGS_SBC16 (int32 a) (int32 b) ((int32 a - (int32 b + tempcInt tempc)) &&& 0xffff)

def setsbc32 (tempc : Bool) (a b : BitVec 32) : CpuState → CpuState :=
  lazySet .FLAGS_SBC32 a b (a - (b + tempcInt tempc))

/-! ## What the flag functions show -/

/-- The six flags, as the flag functions give them. -/
def observe (st : CpuState) : ArithFlags where
  c := CF_SET st
  p := PF_SET st
  a := AF_SET st
  z := ZF_SET st
  s := NF_SET st
  o := VF_SET st

/-- The six flags that `cpu_state.flags` holds. -/
def stored (flags : BitVec 16) : ArithFlags where
  c := isSet (flags &&& C_FLAG)
  p := isSet (flags &&& P_FLAG)
  a := isSet (flags &&& A_FLAG)
  z := isSet (flags &&& Z_FLAG)
  s := isSet (flags &&& N_FLAG)
  o := isSet (flags &&& V_FLAG)

end blumach.x86_flags
