-- The arithmetic of the 808x core, `cpu/808x.c`: the adder and the subtractor,
-- the instructions that use them, and the loop of the shifts and rotates.
import BluMach.FlagsRead

namespace blumach.cpu_808x

open arith_flags x86_flags

/-! ## The state -/

/-- The flags, and the globals that the arithmetic takes its operands from. -/
structure Cpu where
  flags : BitVec 16
  cpu_alu_op : Nat
  cpu_src : BitVec 32
  cpu_dest : BitVec 32
  cpu_data : BitVec 32
deriving DecidableEq, Repr

/-- `bits = 8 << (opcode & 1)`. -/
def sizeBits (word : Bool) : Nat := if word then 16 else 8

def size_mask (bits : Nat) : BitVec 32 := 1#32 <<< bits - 1

/-- `cpu_state.flags & C_FLAG` -/
def Cpu.carry (st : Cpu) : Bool := isSet (st.flags &&& C_FLAG)

/-! ## The flags -/

/-- `(flags & ~flag) | (cond ? flag : 0)` -/
def setFlag (flag : BitVec 16) (cond : Bool) (flags : BitVec 16) : BitVec 16 :=
  (flags &&& ~~~flag) ||| (if cond then flag else 0)

def top_bit (w : BitVec 16) (bits : Nat) : Bool := isSet (w &&& BitVec.twoPow 16 (bits - 1))

def set_cf (cond : Bool) (st : Cpu) : Cpu := { st with flags := setFlag C_FLAG cond st.flags }

def set_of (of : Bool) (st : Cpu) : Cpu := { st with flags := setFlag V_FLAG of st.flags }

def set_af (af : Bool) (st : Cpu) : Cpu := { st with flags := setFlag A_FLAG af st.flags }

def set_sf (bits : Nat) (st : Cpu) : Cpu :=
  { st with flags := setFlag N_FLAG (top_bit (st.cpu_data.setWidth 16) bits) st.flags }

def set_pf (st : Cpu) : Cpu :=
  { st with flags := setFlag P_FLAG (evenParity st.cpu_data) st.flags }

def set_zf_ex (zf : Bool) (st : Cpu) : Cpu := { st with flags := setFlag Z_FLAG zf st.flags }

def set_zf (bits : Nat) (st : Cpu) : Cpu := set_zf_ex (st.cpu_data &&& size_mask bits = 0) st

def set_pzs (bits : Nat) (st : Cpu) : Cpu := set_sf bits (set_zf bits (set_pf st))

def set_of_add (bits : Nat) (st : Cpu) : Cpu :=
  set_of (top_bit (((st.cpu_data ^^^ st.cpu_src) &&& (st.cpu_data ^^^ st.cpu_dest)).setWidth 16)
    bits) st

def set_of_sub (bits : Nat) (st : Cpu) : Cpu :=
  set_of (top_bit (((st.cpu_dest ^^^ st.cpu_src) &&& (st.cpu_data ^^^ st.cpu_dest)).setWidth 16)
    bits) st

def do_af (st : Cpu) : Cpu :=
  set_af (isSet ((st.cpu_data ^^^ st.cpu_src ^^^ st.cpu_dest) &&& 0x10)) st

def set_apzs (bits : Nat) (st : Cpu) : Cpu := do_af (set_pzs bits st)

def bitwise (bits : Nat) (data : BitVec 16) (st : Cpu) : Cpu :=
  set_pzs bits { st with
    cpu_data := data.setWidth 32
    flags := st.flags &&& ~~~(C_FLAG ||| A_FLAG ||| V_FLAG) }

def test (bits : Nat) (dest src : BitVec 16) (st : Cpu) : Cpu :=
  bitwise bits (dest &&& src) { st with
    cpu_dest := dest.setWidth 32
    cpu_src := src.setWidth 32 }

/-! ## The adder and the subtractor -/

/-- The adder and the subtractor take back a carry that `alu_op` has put into `cpu_src` for the
operation `op`. They go by the code that was stored last, and by the flag. -/
def bumpedFor (op : Nat) (st : Cpu) : Bool := st.cpu_alu_op = op ∧ st.carry

def takeBack (op : Nat) (st : Cpu) : Cpu :=
  if bumpedFor op st then { st with cpu_src := st.cpu_src - 1 } else st

/-- `set_cf`, or the carry for a source that is all ones with a carry in. -/
def setCarry (special_case carry : Bool) (st : Cpu) : Cpu :=
  if special_case then { st with flags := st.flags ||| C_FLAG } else set_cf carry st

def add (bits : Nat) (st : Cpu) : Cpu :=
  let temp_src := st.cpu_src
  let special_case := bumpedFor 2 st && decide (st.cpu_src &&& size_mask bits = 0)
  let st := { st with cpu_data := st.cpu_dest + st.cpu_src }
  let st := set_of_add bits (set_apzs bits (takeBack 2 st))
  setCarry special_case (st.cpu_data &&& size_mask bits < temp_src &&& size_mask bits) st

def sub (bits : Nat) (st : Cpu) : Cpu :=
  let temp_src := st.cpu_src
  let special_case := bumpedFor 3 st && decide (st.cpu_src &&& size_mask bits = 0)
  let st := { st with cpu_data := st.cpu_dest - st.cpu_src }
  let st := set_of_sub bits (set_apzs bits (takeBack 3 st))
  setCarry special_case (st.cpu_dest &&& size_mask bits < temp_src &&& size_mask bits) st

/-- `if (cpu_state.flags & C_FLAG) cpu_src++;` -/
def bump (st : Cpu) : Cpu := if st.carry then { st with cpu_src := st.cpu_src + 1 } else st

def alu_op (bits : Nat) (st : Cpu) : Cpu :=
  match st.cpu_alu_op with
  | 1 => bitwise bits ((st.cpu_dest ||| st.cpu_src).setWidth 16) st
  | 2 => add bits (bump st)
  | 0 => add bits st
  | 3 => sub bits (bump st)
  | 5 | 7 => sub bits st
  | 4 => test bits (st.cpu_dest.setWidth 16) (st.cpu_src.setWidth 16) st
  | 6 => bitwise bits ((st.cpu_dest ^^^ st.cpu_src).setWidth 16) st
  | _ => st

/-! ## The instructions

What an instruction reads from registers, memory and the prefetch queue is given to it here, as
the 16 bits of the register or of the memory word. A byte instruction takes the low byte. -/

def sign_extend (data : BitVec 8) : BitVec 16 :=
  data.setWidth 16 + (if data < 0x80 then 0 else 0xff00)

/-- `get_ea`, `get_reg`, `get_accum`, `readmem` and `pfq_fetch`. -/
def sized (word : Bool) (v : BitVec 16) : BitVec 16 := if word then v else v &&& 0xff

/-- `opcode & 1` -/
def isWord (opcode : BitVec 8) : Bool := opcode.getLsbD 0

/-- `opcode & 2`: the register is the destination. -/
def toReg (opcode : BitVec 8) : Bool := opcode.getLsbD 1

inductive Instr where
  /-- `alu rm, r / r, rm`: 00-03, 08-0b, 10-13, 18-1b, 20-23, 28-2b, 30-33, 38-3b -/
  | alu_rm (opcode : BitVec 8) (ea reg : BitVec 16)
  /-- `alu A, imm`: 04, 05, 0c, 0d, 14, 15, 1c, 1d, 24, 25, 2c, 2d, 34, 35, 3c, 3d -/
  | alu_a_imm (opcode : BitVec 8) (accum imm : BitVec 16)
  /-- `alu rm, imm`: 80-83, by the two bits at the end -/
  | alu_rm_imm (form : BitVec 2) (rmdat : BitVec 8) (ea imm : BitVec 16)
  /-- f6, f7 -/
  | neg (opcode : BitVec 8) (ea : BitVec 16)
  /-- a6, a7 -/
  | cmps (opcode : BitVec 8) (atSI atDI : BitVec 16)
  /-- ae, af -/
  | scas (opcode : BitVec 8) (accum atDI : BitVec 16)
deriving DecidableEq, Repr

/-- `(opcode >> 3) & 7` -/
def aluField (opcode : BitVec 8) : Nat := (opcode >>> 3 &&& 7).toNat

def Instr.opcode : Instr → BitVec 8
  | .alu_rm opcode .. | .alu_a_imm opcode .. | .neg opcode .. | .cmps opcode ..
  | .scas opcode .. => opcode
  | .alu_rm_imm form .. => 0x80 ||| form.setWidth 8

def Instr.word (i : Instr) : Bool := isWord i.opcode

/-- `cpu_src` of 80 to 83: `pfq_fetchw()`, or one of the two ways to widen `pfq_fetchb()`. -/
def immediate (opcode : BitVec 8) (imm : BitVec 16) : BitVec 16 :=
  if opcode = 0x81 then imm
  else if opcode = 0x83 then sign_extend (imm.setWidth 8)
  else (imm.setWidth 8).setWidth 16 ||| 0xff00

def execute (i : Instr) (st : Cpu) : Cpu :=
  let bits := sizeBits i.word
  match i with
  | .alu_rm opcode ea reg =>
    let tempw := sized i.word ea
    let reg := sized i.word reg
    alu_op bits { st with
      cpu_alu_op := aluField opcode
      cpu_dest := (if toReg opcode then reg else tempw).setWidth 32
      cpu_src := (if toReg opcode then tempw else reg).setWidth 32 }
  | .alu_a_imm opcode accum imm =>
    let cpu_data := (sized i.word imm).setWidth 32
    alu_op bits { st with
      cpu_alu_op := aluField opcode
      cpu_dest := (sized i.word accum).setWidth 32
      cpu_src := cpu_data
      cpu_data := cpu_data }
  | .alu_rm_imm _ rmdat ea imm =>
    let cpu_data := (sized i.word ea).setWidth 32
    alu_op bits { st with
      cpu_alu_op := aluField rmdat
      cpu_dest := cpu_data
      cpu_src := (immediate i.opcode imm).setWidth 32
      cpu_data := cpu_data }
  | .neg _ ea =>
    let cpu_data := (sized i.word ea).setWidth 32
    sub bits { st with
      cpu_dest := 0
      cpu_src := cpu_data
      cpu_data := cpu_data }
  | .cmps _ atSI atDI =>
    let cpu_data := (sized i.word atDI).setWidth 32
    sub bits { st with
      cpu_dest := (sized i.word atSI).setWidth 32
      cpu_src := cpu_data
      cpu_data := cpu_data }
  | .scas _ accum atDI =>
    let cpu_data := (sized i.word atDI).setWidth 32
    sub bits { st with
      cpu_dest := (sized i.word accum).setWidth 32
      cpu_src := cpu_data
      cpu_data := cpu_data }

/-- The value that is written back, by `set_ea`, `set_reg` or `set_accum`. -/
def written (i : Instr) (st : Cpu) : Option (BitVec 16) :=
  match i with
  | .alu_rm .. | .alu_a_imm .. | .alu_rm_imm .. =>
    if (execute i st).cpu_alu_op ≠ 7 then
      some (sized i.word ((execute i st).cpu_data.setWidth 16))
    else none
  | .neg .. => some (sized i.word ((execute i st).cpu_data.setWidth 16))
  | .cmps .. | .scas .. => none

/-! ## The loop -/

/-- A pass of the loop of `execx86`. An instruction that has completed, whatever it did, leaves
`cpu_alu_op` at 0. A prefix, a string instruction that is to repeat and HLT have not, and store no
code in it. -/
inductive Pass : Cpu → Cpu → Prop
  | completed (st st' : Cpu) : Pass st { st' with cpu_alu_op := 0 }
  | unfinished {st st' : Cpu} (h : st'.cpu_alu_op = st.cpu_alu_op) : Pass st st'

/-- The states in which an instruction begins: after `reset_808x`, and after any passes. -/
inductive Begins : Cpu → Prop
  | reset {st : Cpu} (h : st.cpu_alu_op = 0) : Begins st
  | pass {st st' : Cpu} (h : Begins st) (hpass : Pass st st') : Begins st'

/-- No code is left over from the instructions before. -/
theorem Begins.code {st : Cpu} (h : Begins st) : st.cpu_alu_op = 0 := by
  induction h with
  | reset h => exact h
  | pass _ hpass ih =>
    cases hpass with
    | completed => rfl
    | unfinished h => exact h.trans ih

/-! ## Shifts and rotates -/

/-- `!(opcode & 1) ? 0x80 : 0x8000` -/
def signMask (word : Bool) : BitVec 32 := if word then 0x8000 else 0x80

def set_of_rotate (bits : Nat) (st : Cpu) : Cpu :=
  set_of (top_bit ((st.cpu_data ^^^ st.cpu_dest).setWidth 16) bits) st

/-- One turn of the loop of `d0` to `d3`, for `(rmdat & 0x38) >> 3`. -/
def rotate (word : Bool) (op : BitVec 3) (st : Cpu) : Cpu :=
  let bits := sizeBits word
  let st := { st with cpu_dest := st.cpu_data }
  let oldc := st.carry
  match op.toNat with
  | 0 =>
    let st := set_cf (top_bit (st.cpu_data.setWidth 16) bits) st
    let st := { st with cpu_data := st.cpu_data <<< 1 }
    let st := { st with cpu_data := st.cpu_data ||| (if st.carry then 1 else 0) }
    set_af false (set_of_rotate bits st)
  | 1 =>
    let st := set_cf (isSet (st.cpu_data &&& 1)) st
    let st := { st with cpu_data := st.cpu_data >>> 1 }
    let st := { st with cpu_data := st.cpu_data ||| (if st.carry then signMask word else 0) }
    set_af false (set_of_rotate bits st)
  | 2 =>
    let st := set_cf (top_bit (st.cpu_data.setWidth 16) bits) st
    let st := { st with cpu_data := st.cpu_data <<< 1 ||| (if oldc then 1 else 0) }
    set_af false (set_of_rotate bits st)
  | 3 =>
    let st := set_cf (isSet (st.cpu_data &&& 1)) st
    let st := { st with cpu_data := st.cpu_data >>> 1 }
    let st := { st with cpu_data := st.cpu_data ||| (if oldc then signMask word else 0) }
    let st := set_cf (isSet (st.cpu_dest &&& 1)) st
    set_af false (set_of_rotate bits st)
  | 4 =>
    let st := set_cf (top_bit (st.cpu_data.setWidth 16) bits) st
    let st := { st with cpu_data := st.cpu_data <<< 1 }
    let st := set_of_rotate bits st
    set_pzs bits (set_af (isSet (st.cpu_data &&& 0x10)) st)
  | 5 =>
    let st := set_cf (isSet (st.cpu_data &&& 1)) st
    let st := { st with cpu_data := st.cpu_data >>> 1 }
    set_pzs bits (set_af false (set_of_rotate bits st))
  | 6 =>
    let st := set_cf false (bitwise bits 0xffff st)
    set_pzs bits (set_af false (set_of_rotate bits st))
  | _ =>
    let st := set_cf (isSet (st.cpu_data &&& 1)) st
    let st := { st with cpu_data := st.cpu_data >>> 1 }
    let st := { st with cpu_data := st.cpu_data ||| (st.cpu_dest &&& signMask word) }
    set_pzs bits (set_af false (set_of_rotate bits st))

/-- `while (cpu_src != 0) { ...; --cpu_src; }`, for `cpu_src` turns. -/
def rotateLoop (word : Bool) (op : BitVec 3) : Nat → Cpu → Cpu
  | 0, st => st
  | n + 1, st =>
    let st := rotate word op st
    rotateLoop word op n { st with cpu_src := st.cpu_src - 1 }

/-- `rot rm`: d0 and d1 by one place, d2 and d3 by the places of `CL`. On the 8086 the count is
taken as it is. -/
def rot_rm (opcode : BitVec 8) (op : BitVec 3) (ea : BitVec 16) (CL : BitVec 8) (st : Cpu) : Cpu :=
  let cpu_src : BitVec 32 := if toReg opcode then CL.setWidth 32 else 1
  rotateLoop (isWord opcode) op cpu_src.toNat { st with
    cpu_data := (sized (isWord opcode) ea).setWidth 32
    cpu_src := cpu_src }

end blumach.cpu_808x
