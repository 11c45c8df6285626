-- The multiplications and divisions of the 808x core, `cpu/808x.c`: the loop that adds through the
-- emulated adder, the loop that divides, and the instructions around them.
import BluMach.Cpu808x
import Mathlib.Logic.Function.Iterate

namespace blumach.cpu_808x

open arith_flags x86_flags

/-! ## The loop of `mul` -/

/-- `size_mask` of `mul` and `x86_div`, in 16 bits. -/
def sizeMask (bits : Nat) : BitVec 16 := (size_mask bits).setWidth 16

def high_bit (bits : Nat) : BitVec 16 := if bits = 16 then 0x8000 else 0x80

/-- The locals of the loop. -/
structure MulLoop where
  st : Cpu
  c : BitVec 16
  a : BitVec 16
  carry : Bool

/-- `if (carry) { cpu_src = c; cpu_dest = b; add(bit_count); ... }` -/
def mulAdd (bits : Nat) (b : BitVec 16) (m : MulLoop) : MulLoop :=
  if m.carry then
    let st := add bits { m.st with cpu_src := m.c.setWidth 32, cpu_dest := b.setWidth 32 }
    { m with
      st := st
      c := st.cpu_data.setWidth 16 &&& sizeMask bits
      carry := st.carry }
  else m

/-- The carry goes into `c`, and the bit that goes out of `c` into `a`. -/
def mulShift (bits : Nat) (m : MulLoop) : MulLoop :=
  { m with
    c := m.c >>> 1 + (if m.carry then high_bit bits else 0)
    a := m.a >>> 1 + (if isSet (m.c &&& 1) then high_bit bits else 0)
    carry := isSet (m.a &&& 1) }

def mulTurn (bits : Nat) (b : BitVec 16) (m : MulLoop) : MulLoop := mulShift bits (mulAdd bits b m)

/-- A byte for AAD, whatever its opcode is. -/
def mulBits (opcode : BitVec 8) : Nat := if opcode ≠ 0xd5 ∧ isWord opcode then 16 else 8

/-- `(rmdat & 0x38) == 0x28`, but for AAD. -/
def mulSigned (opcode rmdat : BitVec 8) : Bool := opcode ≠ 0xd5 ∧ rmdat &&& 0x38 = 0x28

def negateIf (cond : Bool) (x : BitVec 16) : BitVec 16 := if cond then ~~~x + 1 else x

def mul (opcode rmdat : BitVec 8) (a b : BitVec 16) (st : Cpu) : Cpu :=
  let bits := mulBits opcode
  let negative (x : BitVec 16) := mulSigned opcode rmdat && top_bit x bits
  let negate := negative a ^^ negative b
  let b := negateIf (negative b) b
  let a := negateIf (negative a) a &&& sizeMask bits
  let m := (mulTurn bits b)^[bits] ⟨st, 0, a >>> 1, isSet (a &&& 1)⟩
  let a := if negate then (~~~m.a + 1) &&& sizeMask bits else m.a
  let c := if negate then (if a = 0 then ~~~m.c + 1 else ~~~m.c) else m.c
  set_af false (set_pf (set_sf bits { m.st with
    cpu_data := a.setWidth 32, cpu_dest := c.setWidth 32 }))

/-! ## The loop of `x86_div` -/

structure DivLoop where
  l : BitVec 16
  h : BitVec 16
  carry : Bool

def bitOf (cond : Bool) : BitVec 16 := if cond then 1 else 0

/-- `h -= cpu_src` -/
def takeOff (h : BitVec 16) (src : BitVec 32) : BitVec 16 := (h.setWidth 32 - src).setWidth 16

/-- The quotient comes in at the low end of `l`, each bit turned over. -/
def divTurn (bits : Nat) (src : BitVec 32) (d : DivLoop) : DivLoop :=
  let l := d.l <<< 1 + bitOf d.carry
  let h := d.h <<< 1 + bitOf (top_bit d.l bits)
  if top_bit d.h bits then ⟨l, takeOff h src, false⟩
  else if src > h.setWidth 32 then ⟨l, h, true⟩
  else ⟨l, takeOff h src, false⟩

/-! ## The registers -/

/-- The registers of these instructions, and the interrupts that they have called. -/
structure Machine where
  st : Cpu
  AX : BitVec 16
  DX : BitVec 16
  interrupts : List Nat

def Machine.AL (m : Machine) : BitVec 8 := m.AX.setWidth 8

def Machine.AH (m : Machine) : BitVec 8 := (m.AX >>> 8).setWidth 8

def Machine.get_accum (word : Bool) (m : Machine) : BitVec 16 :=
  if word then m.AX else m.AL.setWidth 16

/-- `interrupt(addr)`, of which only the call is kept. -/
def interrupt (addr : Nat) (m : Machine) : Machine :=
  { m with interrupts := m.interrupts ++ [addr] }

/-- `(rmdat & 0x38) == 0x38`, but for AAM. -/
def divSigned (opcode rmdat : BitVec 8) : Bool := opcode ≠ 0xd4 ∧ rmdat &&& 0x38 = 0x38

/-- The dividend without its sign. -/
def negateWide (bits : Nat) (l h : BitVec 16) : BitVec 16 × BitVec 16 :=
  let l := (~~~l + 1) &&& sizeMask bits
  (l, (if l = 0 then ~~~h + 1 else ~~~h) &&& sizeMask bits)

/-- What is left in the registers. AAM has them the other way round. -/
def setQuotient (opcode : BitVec 8) (l h : BitVec 16) (m : Machine) : Machine :=
  if opcode = 0xd4 then { m with AX := l.setWidth 8 ++ h.setWidth 8 }
  else if isWord opcode then { m with AX := l, DX := h }
  else { m with AX := h.setWidth 8 ++ l.setWidth 8 }

/-- The divisor is in `cpu_src`. -/
def x86_div (opcode rmdat : BitVec 8) (l h : BitVec 16) (m : Machine) : Machine :=
  let l := if isWord opcode then m.AX else l
  let h := if isWord opcode then m.DX else h
  let bits := sizeBits (isWord opcode)
  let signed := divSigned opcode rmdat
  let dividend_negative := signed && top_bit h bits
  let divisor_negative := signed && top_bit (m.st.cpu_src.setWidth 16) bits
  let (l, h) := if dividend_negative then negateWide bits l h else (l, h)
  let src := (if divisor_negative then ~~~m.st.cpu_src + 1 else m.st.cpu_src) &&& size_mask bits
  let m := { m with st := { m.st with cpu_src := src } }
  if h.setWidth 32 ≥ src then interrupt 0 m
  else
    let d := (divTurn bits src)^[bits] ⟨l, h, true⟩
    let l := ~~~(d.l <<< 1 + bitOf d.carry)
    if signed && top_bit l bits then interrupt 0 m
    else
      setQuotient opcode (negateIf (dividend_negative ^^ divisor_negative) l)
        (negateIf dividend_negative d.h) m

/-! ## The instructions -/

def set_co_mul (carry : Bool) (st : Cpu) : Cpu :=
  set_zf_ex (!carry) (set_of carry (set_cf carry st))

/-- What the upper half is without a carry. -/
def extension (unsigned lowerPositive : Bool) (ones : BitVec 16) : BitVec 16 :=
  if lowerPositive || unsigned then 0 else ones

/-- MUL and IMUL of f6 and f7. -/
def mul_rm (is_nec : Bool) (opcode rmdat : BitVec 8) (ea : BitVec 16) (m : Machine) : Machine :=
  let old_flags := m.st.flags
  let word := isWord opcode
  let unsigned := decide (rmdat &&& 0x38 = 0x20)
  let cpu_data := sized word ea
  let st := mul opcode rmdat (m.get_accum word) cpu_data
    { m.st with cpu_data := cpu_data.setWidth 32 }
  let m :=
    if word then
      let AX := st.cpu_data.setWidth 16
      let DX := st.cpu_dest.setWidth 16
      let st := set_co_mul (DX ≠ extension unsigned (AX &&& 0x8000 = 0) 0xffff) st
      { m with AX := AX, DX := DX, st := { st with cpu_data := DX.setWidth 32 } }
    else
      let AL := st.cpu_data.setWidth 8
      let AH := st.cpu_dest.setWidth 8
      let st := set_co_mul (AH.setWidth 16 ≠ extension unsigned (AL &&& 0x80 = 0) 0xff) st
      { m with
        AX := AH ++ AL
        st := if is_nec then st else { st with cpu_data := AH.setWidth 32 } }
  let st := set_pf (set_sf (sizeBits word) m.st)
  { m with
    st :=
      if is_nec then { st with flags := (st.flags &&& ~~~Z_FLAG) ||| (old_flags &&& Z_FLAG) }
      else st }

/-- DIV and IDIV of f6 and f7. -/
def div_rm (opcode rmdat : BitVec 8) (ea : BitVec 16) (m : Machine) : Machine :=
  let cpu_data := (sized (isWord opcode) ea).setWidth 32
  x86_div opcode rmdat (m.AL.setWidth 16) (m.AH.setWidth 16)
    { m with st := { m.st with cpu_data := cpu_data, cpu_src := cpu_data } }

/-- `pfq_fetchw()` of 69, `pfq_fetchb()` of 6b. -/
def fetched (opcode : BitVec 8) (imm : BitVec 16) : BitVec 16 :=
  if opcode = 0x69 then imm else (imm.setWidth 8).setWidth 16

/-- IMUL of the 80186 with an immediate: what is left, and what the register is set to. -/
def imul_imm (opcode rmdat : BitVec 8) (ea imm : BitVec 16) (st : Cpu) : Cpu × BitVec 16 :=
  let st := mul opcode rmdat ea (fetched opcode imm) { st with cpu_data := ea.setWidth 32 }
  (set_co_mul (st.cpu_dest ≠ 0) st, st.cpu_data.setWidth 16)

end blumach.cpu_808x
