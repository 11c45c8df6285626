-- The ports, `io.c`: each port has a list of the records of its handlers, linked both
-- ways, with the first one in `io` and the last one in `io_last`.
import BluMach.LinkedList
import Mathlib.Data.BitVec

namespace blumach.io

/-! ## The state -/

/-- A record of a handler, with its functions and its device. -/
structure Io (F V : Type) where
  inb : Option F
  inw : Option F
  inl : Option F
  outb : Option F
  outw : Option F
  outl : Option F
  priv : V
deriving DecidableEq, Repr

/-- An element of `io` and of `io_last`. -/
abbrev Port := Fin 65536

/-- How the emulator goes wrong: an element beyond the arrays, a record that was freed, and a list
without an end. -/
inductive Fault where
  | beyond (i : Nat)
  | freed (a : Nat)
  | endless
deriving DecidableEq, Repr

set_option linter.dupNamespace false in
structure Ports (F V : Type) where
  io : Port → Option Nat
  io_last : Port → Option Nat
  record : Nat → Option (Io F V)
  next : Nat → Option Nat
  prev : Nat → Option Nat
  /-- What `calloc` gives next. -/
  calloc : Nat

/-- A range of ports, as a call names it. -/
structure Range where
  base : BitVec 16
  size : BitVec 16
  step : Nat
  pos : 0 < step

/-- The loop `for (uint32_t c = 0; c < size; c += step)`, with `base + c`. -/
def Range.indices (g : Range) : List Nat :=
  ((List.range g.size.toNat).filter fun c => c % g.step = 0).map fun c => g.base.toNat + c

section

variable {F V : Type}

def empty : Ports F V where
  io := fun _ => none
  io_last := fun _ => none
  record := fun _ => none
  next := fun _ => none
  prev := fun _ => none
  calloc := 0

/-- `io[i]` -/
def element (i : Nat) : Except Fault Port :=
  if h : i < 65536 then .ok ⟨i, h⟩ else .error (.beyond i)

/-- A record that is looked at, or written to. -/
def Ports.load (s : Ports F V) (a : Nat) : Except Fault (Io F V) :=
  match s.record a with
  | some r => .ok r
  | none => .error (.freed a)

def Ports.touch (s : Ports F V) : Option Nat → Except Fault Unit
  | some a => (s.load a).map fun _ => ()
  | none => .ok ()

/-! ## The calls -/

/-- A new record goes to the end of the list of its port. -/
def append (p : Port) (r : Io F V) (s : Ports F V) : Ports F V :=
  let last := s.io_last p
  let q := s.calloc
  { io := if last = none then Function.update s.io p (some q) else s.io
    io_last := Function.update s.io_last p (some q)
    record := Function.update s.record q (some r)
    next := Function.update (linked_list.setOpt s.next last (some q)) q none
    prev := Function.update s.prev q last
    calloc := q + 1 }

/-- One port of `io_sethandler_common`. -/
def set_one (r : Io F V) (s : Ports F V) (i : Nat) : Except Fault (Ports F V) := do
  let p ← element i
  s.touch (s.io_last p)
  return append p r s

def io_sethandler_common (g : Range) (r : Io F V) (s : Ports F V) : Except Fault (Ports F V) :=
  g.indices.foldlM (set_one r) s

variable [DecidableEq F] [DecidableEq V]

/-- The loop of `io_removehandler_common` down the list of a port. -/
def find_equal (r : Io F V) (s : Ports F V) : Nat → Option Nat → Except Fault (Option Nat)
  | _, none => .ok none
  | 0, some _ => .error .endless
  | fuel + 1, some a => do
    let r' ← s.load a
    if r' = r then return some a else find_equal r s fuel (s.next a)

/-- The record goes out of the list of its port, and is freed. -/
def unlink (p : Port) (a : Nat) (s : Ports F V) : Ports F V :=
  { s with
    io := if s.prev a = none then Function.update s.io p (s.next a) else s.io
    io_last := if s.next a = none then Function.update s.io_last p (s.prev a) else s.io_last
    record := Function.update s.record a none
    next := linked_list.setOpt s.next (s.prev a) (s.next a)
    prev := linked_list.setOpt s.prev (s.next a) (s.prev a) }

/-- One port of `io_removehandler_common`. A list has no more records than there were ever made. -/
def remove_one (r : Io F V) (s : Ports F V) (i : Nat) : Except Fault (Ports F V) := do
  let p ← element i
  match ← find_equal r s s.calloc (s.io p) with
  | none => return s
  | some a =>
    s.touch (s.prev a)
    s.touch (s.next a)
    return unlink p a s

def io_removehandler_common (g : Range) (r : Io F V) (s : Ports F V) :
    Except Fault (Ports F V) :=
  g.indices.foldlM (remove_one r) s

/-- A call of a device that takes its ports, or gives them back. -/
structure Call (F V : Type) where
  set : Bool
  range : Range
  record : Io F V

def io_handler_common (s : Ports F V) (call : Call F V) : Except Fault (Ports F V) :=
  if call.set then io_sethandler_common call.range call.record s
  else io_removehandler_common call.range call.record s

end

end blumach.io
