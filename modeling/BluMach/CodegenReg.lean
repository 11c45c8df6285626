-- The registers of the recompiler's intermediate code and their versions, from
-- `codegen_new/codegen_reg.h`, `codegen_reg.c` and `codegen_ir_defs.h`: a block is
-- built uop by uop, and versions that nobody needs go to a list of dead ones. The loops
-- that `codegen_ir_compile` unrolls are left out: `duplicate_uop` copies the uops of the
-- loop through `uop_alloc_unroll`, which at a barrier marks the versions as required
-- itself where `uop_alloc` leaves that to the next write.
import Mathlib.Data.BitVec
import Mathlib.Data.Fintype.Basic
import Mathlib.Logic.Function.Basic

namespace blumach.codegen_reg

/-- For the literals of `Fin 94`. -/
scoped instance neZero_94 : @NeZero Nat Zero.ofOfNat0 94 := ⟨by decide⟩

/-! ## Registers -/

/-- The numbers from `IREG_EAX` up to `IREG_COUNT`. -/
abbrev IReg := Fin 94

def IREG_EBX : IReg := 3
def IREG_ESP : IReg := 4
def IREG_temp0 : IReg := 83
def IREG_fpu_op : IReg := 89
def IREG_fpu_pc : IReg := 92

inductive NativeSize where
  | REG_BYTE
  | REG_WORD
  | REG_DWORD
  | REG_QWORD
  | REG_POINTER
  | REG_DOUBLE
  | REG_FPU_ST_BYTE
  | REG_FPU_ST_DOUBLE
  | REG_FPU_ST_QWORD
deriving DecidableEq

inductive Volatility where
  | REG_PERMANENT
  | REG_VOLATILE
deriving DecidableEq

open NativeSize Volatility

/-- The sizes and the volatility of `ireg_data`, in the order of the numbers. -/
def ireg_list : List (NativeSize × Volatility) :=
  -- EAX to EDI, flags_op to flags_op2, pc, oldpc, eaaddr
  List.replicate 15 (REG_DWORD, REG_PERMANENT) ++
  -- ea_seg, op32, ssegsx, rm_mod_reg, cycles
  [(REG_POINTER, REG_PERMANENT), (REG_DWORD, REG_PERMANENT), (REG_BYTE, REG_PERMANENT),
    (REG_DWORD, REG_PERMANENT), (REG_DWORD, REG_PERMANENT)] ++
  -- the segment bases, and the segments
  List.replicate 6 (REG_DWORD, REG_PERMANENT) ++ List.replicate 6 (REG_WORD, REG_PERMANENT) ++
  -- ST0 to ST7, tag0 to tag7, ST0_i64 to ST7_i64, MM0x to MM7x
  List.replicate 8 (REG_FPU_ST_DOUBLE, REG_PERMANENT) ++
  List.replicate 8 (REG_FPU_ST_BYTE, REG_PERMANENT) ++
  List.replicate 8 (REG_FPU_ST_QWORD, REG_PERMANENT) ++
  List.replicate 8 (REG_QWORD, REG_PERMANENT) ++
  -- NPXCx, NPXSx, flagsx, eflagsx
  List.replicate 4 (REG_WORD, REG_PERMANENT) ++
  -- the segment limits
  List.replicate 12 (REG_DWORD, REG_PERMANENT) ++
  -- eaa16, x87_op, FPU_TOP
  [(REG_WORD, REG_PERMANENT), (REG_WORD, REG_PERMANENT), (REG_DWORD, REG_PERMANENT)] ++
  -- temp0 to temp3, temp0d, temp1d
  List.replicate 4 (REG_DWORD, REG_VOLATILE) ++ List.replicate 2 (REG_DOUBLE, REG_VOLATILE) ++
  -- fpu_op, fpu_CS, fpu_cs, fpu_pc, sf_exc
  [(REG_WORD, REG_PERMANENT), (REG_WORD, REG_PERMANENT), (REG_DWORD, REG_PERMANENT),
    (REG_DWORD, REG_PERMANENT), (REG_DWORD, REG_PERMANENT)]

theorem ireg_list_length : ireg_list.length = 94 := by rfl

def ireg_data (reg : IReg) : NativeSize × Volatility :=
  ireg_list.get (reg.cast ireg_list_length.symm)

def native_size (reg : IReg) : NativeSize := (ireg_data reg).1

def is_volatile (reg : IReg) : Volatility := (ireg_data reg).2

inductive IRegSize where
  | IREG_SIZE_L
  | IREG_SIZE_W
  | IREG_SIZE_B
  | IREG_SIZE_BH
  | IREG_SIZE_D
  | IREG_SIZE_Q
deriving DecidableEq

open IRegSize

/-- A register number with the size of the access, as in `IREG_AL`. -/
structure Operand where
  reg : IReg
  size : IRegSize
deriving DecidableEq

/-- With pointers of 64 bits. -/
def native_requested_sizes : NativeSize → IRegSize → Bool
  | REG_BYTE, IREG_SIZE_B => true
  | REG_FPU_ST_BYTE, IREG_SIZE_B => true
  | REG_WORD, IREG_SIZE_W => true
  | REG_DWORD, IREG_SIZE_L => true
  | REG_QWORD, IREG_SIZE_D => true
  | REG_FPU_ST_QWORD, IREG_SIZE_D => true
  | REG_DOUBLE, IREG_SIZE_D => true
  | REG_FPU_ST_DOUBLE, IREG_SIZE_D => true
  | REG_QWORD, IREG_SIZE_Q => true
  | REG_FPU_ST_QWORD, IREG_SIZE_Q => true
  | REG_DOUBLE, IREG_SIZE_Q => true
  | REG_FPU_ST_DOUBLE, IREG_SIZE_Q => true
  | REG_POINTER, IREG_SIZE_Q => true
  | _, _ => false

def reg_is_native_size (op : Operand) : Bool := native_requested_sizes (native_size op.reg) op.size

/-! ## Uops -/

def UOP_TYPE_BARRIER : BitVec 32 := 1 <<< 31

def UOP_TYPE_ORDER_BARRIER : BitVec 32 := 1 <<< 27

def UOP_INVALID : BitVec 32 := 0xff

/-- The test that `uop_alloc` and the removal of dead uops make. -/
def isBarrier (uop_type : BitVec 32) : Bool :=
  uop_type &&& (UOP_TYPE_BARRIER ||| UOP_TYPE_ORDER_BARRIER) != 0

/-- An `ir_reg_t`: an operand and the version of its register. -/
structure IrReg extends Operand where
  version : Nat
deriving DecidableEq

/-- An absent register is `invalid_ir_reg`. -/
structure Uop where
  type : BitVec 32
  dest_reg_a : Option IrReg
  src_reg_a : Option IrReg
  src_reg_b : Option IrReg
  src_reg_c : Option IrReg

/-- What a `uop_gen` function is called with. The type is that of some operation. -/
structure UopCall where
  type : BitVec 32
  valid : type ≠ UOP_INVALID
  dest : Option Operand
  src_a : Option Operand
  src_b : Option Operand
  src_c : Option Operand

/-! ## Versions -/

structure RegVersion where
  refcount : Nat
  /-- `REG_FLAGS_REQUIRED` -/
  required : Bool
  /-- `REG_FLAGS_DEAD` -/
  dead : Bool
  parent_uop : Nat
  next : Option (IReg × Nat)

/-- The globals of `codegen_reg.c` and the block that is built. A dead list of 0 is
`none`. -/
structure RegState where
  reg_last_version : IReg → Nat
  reg_version : IReg → Nat → RegVersion
  dirty_ir_regs : IReg → Bool
  reg_dead_list : Option (IReg × Nat)
  uops : Nat → Uop
  wr_pos : Nat

/-- After `codegen_reg_reset` and `codegen_ir_init`. The versions above 0 are those of
the block before. -/
structure Fresh (s : RegState) : Prop where
  reg_last_version : ∀ reg, s.reg_last_version reg = 0
  refcount : ∀ reg, (s.reg_version reg 0).refcount = 0
  dirty_ir_regs : ∀ reg, s.dirty_ir_regs reg = false
  reg_dead_list : s.reg_dead_list = none
  wr_pos : s.wr_pos = 0

def setVersion (reg : IReg) (version : Nat) (regv : RegVersion) (s : RegState) : RegState :=
  { s with reg_version :=
      Function.update s.reg_version reg (Function.update (s.reg_version reg) version regv) }

def add_to_dead_list (reg : IReg) (version : Nat) (s : RegState) : RegState :=
  let s := setVersion reg version { s.reg_version reg version with next := s.reg_dead_list } s
  { s with reg_dead_list := some (reg, version) }

/-! ## Building a block

A result of `none` is a fatal error, or a count that leaves its table or its byte;
`CPU_BLOCK_END` ends the block before. -/

def codegen_reg_read (op : Operand) (s : RegState) : Option (RegState × IrReg) :=
  let version := s.reg_last_version op.reg
  let regv := s.reg_version op.reg version
  if regv.refcount = 255 then none
  else
    some (setVersion op.reg version
      { regv with
        required := false
        dead := false
        refcount := regv.refcount + 1 } s, ⟨op, version⟩)

/-- The test of the dirty bit in `codegen_reg_write`. -/
def clearDirty (reg : IReg) (s : RegState) : RegState :=
  if s.dirty_ir_regs reg = false then s
  else if reg > IREG_EBX ∧ reg < IREG_temp0 ∧ s.reg_last_version reg > 0 then
    setVersion reg (s.reg_last_version reg)
      { s.reg_version reg (s.reg_last_version reg) with required := true }
      { s with dirty_ir_regs := Function.update s.dirty_ir_regs reg false }
  else { s with dirty_ir_regs := Function.update s.dirty_ir_regs reg false }

/-- A version that was not read, and need not be there, is dead with the next write.
Non-native size writes have an implicit dependency on it. -/
def checkDead (op : Operand) (s : RegState) : RegState :=
  let last_version := s.reg_last_version op.reg
  if op.reg > IREG_EBX ∧ last_version ≠ 0 ∧ (s.reg_version op.reg last_version).refcount = 0 ∧
      (s.reg_version op.reg last_version).required = false ∧ reg_is_native_size op = true then
    add_to_dead_list op.reg last_version s
  else s

def codegen_reg_write (op : Operand) (uop_nr : Nat) (s : RegState) : Option (RegState × IrReg) :=
  let last_version := s.reg_last_version op.reg
  if last_version = 255 then none
  else
    let s := checkDead op (clearDirty op.reg s)
    let s := { s with
      reg_last_version := Function.update s.reg_last_version op.reg (last_version + 1) }
    some (setVersion op.reg (last_version + 1)
      { s.reg_version op.reg (last_version + 1) with
        refcount := 0
        required := false
        dead := false
        parent_uop := uop_nr } s, ⟨op, last_version + 1⟩)

/-- What `uop_alloc` does besides clearing the uop. -/
def uop_alloc (uop_type : BitVec 32) (s : RegState) : Option RegState :=
  if s.wr_pos ≥ 4096 then none
  else
    some { s with
      wr_pos := s.wr_pos + 1
      dirty_ir_regs := if isBarrier uop_type then fun _ => true else s.dirty_ir_regs }

def readOpt (op : Option Operand) (s : RegState) : Option (RegState × Option IrReg) :=
  match op with
  | none => some (s, none)
  | some op => (codegen_reg_read op s).map fun r => (r.1, some r.2)

def writeOpt (op : Option Operand) (uop_nr : Nat) (s : RegState) :
    Option (RegState × Option IrReg) :=
  match op with
  | none => some (s, none)
  | some op => (codegen_reg_write op uop_nr s).map fun r => (r.1, some r.2)

/-- A `uop_gen` function, which reads the sources and then writes. -/
def uop_gen (u : UopCall) (s : RegState) : Option RegState :=
  (uop_alloc u.type s).bind fun s =>
  (readOpt u.src_a s).bind fun (s, src_reg_a) =>
  (readOpt u.src_b s).bind fun (s, src_reg_b) =>
  (readOpt u.src_c s).bind fun (s, src_reg_c) =>
  (writeOpt u.dest (s.wr_pos - 1) s).bind fun (s, dest_reg_a) =>
  let uop : Uop := { type := u.type, dest_reg_a, src_reg_a, src_reg_b, src_reg_c }
  some { s with uops := Function.update s.uops (s.wr_pos - 1) uop }

def build : List UopCall → RegState → Option RegState
  | [], s => some s
  | u :: us, s => (uop_gen u s).bind (build us)

/-! ## Removal of dead uops -/

def codegen_reg_mark_as_required (s : RegState) : RegState :=
  { s with
    reg_version := fun reg version =>
      if reg ≥ IREG_ESP ∧ reg < IREG_temp0 ∧ s.reg_last_version reg > 0 ∧
          version = s.reg_last_version reg then
        { s.reg_version reg version with required := true }
      else s.reg_version reg version
    dirty_ir_regs := fun _ => false }

/-- The reference of a removed uop to one of its sources goes. -/
def dropSource (src : Option IrReg) (s : RegState) : RegState :=
  match src with
  | none => s
  | some r =>
    let src_regv := s.reg_version r.reg r.version
    let refcount := (src_regv.refcount + 255) % 256
    let s := setVersion r.reg r.version { src_regv with refcount } s
    if refcount = 0 then add_to_dead_list r.reg r.version s else s

/-- The body of the loop, for the head of the list. -/
def removeDead (reg : IReg) (version : Nat) (s : RegState) : RegState :=
  let nr := (s.reg_version reg version).parent_uop
  let uop := s.uops nr
  let s :=
    if isBarrier uop.type then s
    else
      let s := { s with uops := Function.update s.uops nr { uop with type := UOP_INVALID } }
      let s := dropSource uop.src_reg_a s
      let s := dropSource uop.src_reg_b s
      let s := dropSource uop.src_reg_c s
      setVersion reg version { s.reg_version reg version with dead := true } s
  { s with reg_dead_list := (s.reg_version reg version).next }

def processLoop : Nat → RegState → Option RegState
  | fuel, s =>
    match s.reg_dead_list with
    | none => some s
    | some (reg, version) =>
      match fuel with
      | 0 => none
      | fuel + 1 => processLoop fuel (removeDead reg version s)

/-- Each version of a register is in the list once at most. -/
def codegen_reg_process_dead_list (s : RegState) : Option RegState := processLoop (94 * 256) s

end blumach.codegen_reg
