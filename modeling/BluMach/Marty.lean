-- The ALU and the shifter of the cycle-exact 808x core,
-- `cpu/808x_marty_86box.c`.
import BluMach.FlagsRead

namespace blumach.m808x

open arith_flags x86_flags

/-! ## The flags -/

inductive alu_kind where
  | ALU_ADD | ALU_OR | ALU_ADC | ALU_SBB | ALU_AND | ALU_SUB | ALU_XOR | ALU_CMP
deriving DecidableEq, Repr

def S_FLAG : BitVec 16 := N_FLAG

def parity_even8 (value : BitVec 8) : Bool :=
  let value := value ^^^ (value >>> 4)
  let value := value &&& 0x0f
  (0x6996#32 >>> value.toNat) &&& 1 = 0

def set_flag_state (flag : BitVec 16) (state : Bool) (flags : BitVec 16) : BitVec 16 :=
  if state then flags ||| flag else flags &&& ~~~flag

def set_szp8 (value : BitVec 8) (flags : BitVec 16) : BitVec 16 :=
  let flags := set_flag_state S_FLAG (value &&& 0x80 ≠ 0) flags
  let flags := set_flag_state Z_FLAG (value = 0) flags
  set_flag_state P_FLAG (parity_even8 value) flags

def set_szp16 (value : BitVec 16) (flags : BitVec 16) : BitVec 16 :=
  let flags := set_flag_state S_FLAG (value &&& 0x8000 ≠ 0) flags
  let flags := set_flag_state Z_FLAG (value = 0) flags
  set_flag_state P_FLAG (parity_even8 (value.setWidth 8)) flags

/-- `if (word) set_szp16(icpu, result); else set_szp8(icpu, (uint8_t) result);` -/
def set_szp (word : Bool) (result : BitVec 16) (flags : BitVec 16) : BitVec 16 :=
  if word then set_szp16 result flags else set_szp8 (result.setWidth 8) flags

/-! ## The ALU -/

/-- The result and the flags after `alu_binary`. -/
def alu_binary (kind : alu_kind) (lhs rhs : BitVec 16) (word : Bool) (flags : BitVec 16) :
    BitVec 16 × BitVec 16 :=
  let mask : BitVec 32 := if word then 0xffff else 0xff
  let sign : BitVec 32 := if word then 0x8000 else 0x80
  let a := lhs.setWidth 32 &&& mask
  let b := rhs.setWidth 32 &&& mask
  let carry_in : BitVec 32 := if flags &&& C_FLAG ≠ 0 then 1 else 0
  let (result, carry, overflow, aux) : BitVec 32 × Bool × Bool × Bool :=
    match kind with
    | .ALU_ADD | .ALU_ADC =>
      let cin := if kind = .ALU_ADC then carry_in else 0
      let wide := a + b + cin
      let result := wide &&& mask
      (result, decide (mask < wide), decide ((~~~(a ^^^ b) &&& (a ^^^ result)) &&& sign ≠ 0),
        decide ((a ^^^ b ^^^ result) &&& 0x10 ≠ 0))
    | .ALU_SUB | .ALU_CMP | .ALU_SBB =>
      let bin := if kind = .ALU_SBB then carry_in else 0
      let subtrahend := b + bin
      let result := (a - subtrahend) &&& mask
      (result, decide (a < subtrahend),
        decide (((a ^^^ b) &&& (a ^^^ result)) &&& sign ≠ 0),
        decide ((a ^^^ b ^^^ result) &&& 0x10 ≠ 0))
    | .ALU_OR => (a ||| b, false, false, false)
    | .ALU_AND => (a &&& b, false, false, false)
    | .ALU_XOR => (a ^^^ b, false, false, false)
  let flags :=
    if kind = .ALU_OR ∨ kind = .ALU_AND ∨ kind = .ALU_XOR then
      set_flag_state A_FLAG false (set_flag_state V_FLAG false (set_flag_state C_FLAG false flags))
    else
      set_flag_state A_FLAG aux (set_flag_state V_FLAG overflow (set_flag_state C_FLAG carry flags))
  (result.setWidth 16, set_szp word (result.setWidth 16) flags)

/-! ## The shifter -/

/-- The locals of the loop. -/
structure Iteration where
  result : BitVec 16
  cf : Bool
  of : Bool
deriving DecidableEq, Repr

/-- The path of one place, for the four rotates. -/
def rotateOnce (op : BitVec 3) (mask sign : BitVec 16) (s : Iteration) : Iteration :=
  let result := s.result
  match op.toNat with
  | 0 =>
    let outgoing := decide (result &&& sign ≠ 0)
    let result := (result <<< 1 ||| (if outgoing then 1 else 0)) &&& mask
    ⟨result, outgoing, outgoing != decide (result &&& sign ≠ 0)⟩
  | 1 =>
    let outgoing := decide (result &&& 1 ≠ 0)
    let result := result >>> 1 ||| (if outgoing then sign else 0)
    ⟨result, outgoing, decide (result &&& sign ≠ 0) != decide (result &&& (sign >>> 1) ≠ 0)⟩
  | 2 =>
    let incoming := s.cf
    let outgoing := decide (result &&& sign ≠ 0)
    let result := (result <<< 1 ||| (if incoming then 1 else 0)) &&& mask
    ⟨result, outgoing, outgoing != decide (result &&& sign ≠ 0)⟩
  | 3 =>
    let incoming := s.cf
    let outgoing := decide (result &&& 1 ≠ 0)
    let result := result >>> 1 ||| (if incoming then sign else 0)
    ⟨result, outgoing, decide (result &&& sign ≠ 0) != decide (result &&& (sign >>> 1) ≠ 0)⟩
  | _ => s

/-- One turn of the loop. -/
def iterate (op : BitVec 3) (mask sign : BitVec 16) (s : Iteration) : Iteration :=
  let result := s.result
  match op.toNat with
  | 0 =>
    let outgoing := decide (result &&& sign ≠ 0)
    let result := (result <<< 1 ||| (if outgoing then 1 else 0)) &&& mask
    ⟨result, outgoing, outgoing != decide (result &&& sign ≠ 0)⟩
  | 1 =>
    let outgoing := decide (result &&& 1 ≠ 0)
    let result := result >>> 1
    let of := outgoing != decide (result &&& (sign >>> 1) ≠ 0)
    ⟨result ||| (if outgoing then sign else 0), outgoing, of⟩
  | 2 =>
    let incoming := s.cf
    let outgoing := decide (result &&& sign ≠ 0)
    let result := (result <<< 1) &&& mask
    let result := result ||| (if incoming then 1 else 0)
    ⟨result, outgoing, outgoing != decide (result &&& sign ≠ 0)⟩
  | 3 =>
    let incoming := s.cf
    let outgoing := decide (result &&& 1 ≠ 0)
    let result := result >>> 1
    let of := incoming != decide (result &&& (sign >>> 1) ≠ 0)
    ⟨result ||| (if incoming then sign else 0), outgoing, of⟩
  | 4 =>
    let outgoing := decide (result &&& sign ≠ 0)
    let result := (result <<< 1) &&& mask
    ⟨result, outgoing, outgoing != decide (result &&& sign ≠ 0)⟩
  | 5 => ⟨result >>> 1, decide (result &&& 1 ≠ 0), s.of⟩
  | 7 => ⟨result >>> 1 ||| (result &&& sign), decide (result &&& 1 ≠ 0), s.of⟩
  | _ => s

/-- The result and the flags after `shift_rotate`. -/
def shift_rotate (operation : BitVec 3) (value : BitVec 16) (count : BitVec 8) (word : Bool)
    (flags : BitVec 16) : BitVec 16 × BitVec 16 :=
  let mask : BitVec 16 := if word then 0xffff else 0x00ff
  let sign : BitVec 16 := if word then 0x8000 else 0x0080
  let op := operation
  let result := value &&& mask
  if count = 0 then (result, flags)
  else if op = 6 then
    let result := mask
    let flags := set_flag_state C_FLAG false flags
    let flags := set_flag_state A_FLAG false flags
    let flags := set_flag_state V_FLAG false flags
    (result, set_szp word result flags)
  else
    let original := result
    let cf := decide (flags &&& C_FLAG ≠ 0)
    let of := decide (flags &&& V_FLAG ≠ 0)
    if count = 1 ∧ op < 4 then
      let s := rotateOnce op mask sign ⟨result, cf, of⟩
      (s.result, set_flag_state V_FLAG s.of (set_flag_state C_FLAG s.cf flags))
    else
      let s := (iterate op mask sign)^[count.toNat] ⟨result, cf, of⟩
      let flags := set_flag_state C_FLAG s.cf flags
      let flags :=
        match op.toNat with
        | 0 | 1 | 2 | 3 => set_flag_state V_FLAG s.of flags
        | 4 =>
          let flags := set_flag_state V_FLAG s.of flags
          let flags := set_flag_state A_FLAG (s.result &&& 0x10 ≠ 0) flags
          set_szp word s.result flags
        | 5 =>
          let flags := set_flag_state V_FLAG
            (decide (count = 1) && decide (original &&& sign ≠ 0)) flags
          let flags := set_flag_state A_FLAG false flags
          set_szp word s.result flags
        | 7 =>
          let flags := set_flag_state V_FLAG false flags
          let flags := set_flag_state A_FLAG false flags
          set_szp word s.result flags
        | _ => flags
      (s.result, flags)

end blumach.m808x
