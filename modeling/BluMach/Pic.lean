-- The interrupt controllers, `pic.c`: the ports that a guest programs them by,
-- the lines of the devices and the acknowledge cycles of the CPU.
import Mathlib.Data.BitVec
import Mathlib.Logic.Function.Basic

namespace blumach.pic_8259

/-- For the literals of `Fin 8`. -/
scoped instance neZero_8 : @NeZero Nat Zero.ofOfNat0 8 := ⟨by decide⟩

/-- For the literals of `Fin 16`. -/
scoped instance neZero_16 : @NeZero Nat Zero.ofOfNat0 16 := ⟨by decide⟩

/-! ## The state -/

inductive InitState where
  | STATE_NONE | STATE_ICW2 | STATE_ICW3 | STATE_ICW4
deriving DecidableEq, Repr

structure Pic where
  icw1 : BitVec 8
  icw2 : BitVec 8
  icw3 : BitVec 8
  icw4 : BitVec 8
  imr : BitVec 8
  isr : BitVec 8
  irr : BitVec 8
  ocw2 : BitVec 8
  ocw3 : BitVec 8
  int_pending : Bool
  is_master : Bool
  elcr : BitVec 8
  state : InitState
  ack_bytes : Nat
  priority : Nat
  special_mask_mode : Bool
  auto_eoi_rotate : Bool
  interrupt : BitVec 8
  data_bus : BitVec 8
  lines : Fin 8 → BitVec 32

/-- What the board has. A slave is only ever at input 2 of the first controller. -/
structure Machine where
  is_at : Bool
  slave2 : Bool
  /-- `(is286 && !force_xt_imr_timing) || dev->zenith`: a new mask is looked at in the write. -/
  imr_now : Bool
  shadow : Bool
  elcr_enabled : Bool
  pci : Bool
  irq_vector_override : Fin 8 → Option (BitVec 8)

structure State where
  pic : Pic
  pic2 : Pic
  machine : Machine

/-- The two controllers. -/
inductive Dev where
  | pic | pic2
deriving DecidableEq, Repr

def State.get (s : State) : Dev → Pic
  | .pic => s.pic
  | .pic2 => s.pic2

def State.set (s : State) (dev : Dev) (p : Pic) : State :=
  match dev with
  | .pic => { s with pic := p }
  | .pic2 => { s with pic2 := p }

/-- How the emulator goes wrong: a slave that is not there, or an error of its own. -/
inductive Fault where
  | noSlave (x : Nat)
  | fatal
deriving DecidableEq, Repr

/-- `memset` and the fields that `pic_reset` sets. -/
def cleared (is_master : Bool) : Pic where
  icw1 := 0
  icw2 := 0
  icw3 := 0
  icw4 := 0
  imr := 0
  isr := 0
  irr := 0
  ocw2 := 0
  ocw3 := 0
  int_pending := false
  is_master := is_master
  elcr := 0
  state := .STATE_NONE
  ack_bytes := 0
  priority := 0
  special_mask_mode := false
  auto_eoi_rotate := false
  interrupt := 0x17
  data_bus := 0
  lines := fun _ => 0

def pic_reset (machine : Machine) : State := ⟨cleared true, cleared false, machine⟩

/-! ## Requests -/

def bit (j : Nat) : BitVec 8 := BitVec.twoPow 8 j

def isSet {w : Nat} (x : BitVec w) : Bool := x != 0

section

-- what `1 << n` of an `int` is beyond its width, where C leaves it open
variable (beyond : Nat → BitVec 32)

/-- `1 << n` -/
def one_shl (n : Nat) : BitVec 32 := if n < 32 then 1#32 <<< n else beyond n

def pic_cascade_mode (dev : Pic) : Bool := !isSet (dev.icw1 &&& 2)

def pic_slave_on (dev : Pic) (channel : Nat) : Bool :=
  pic_cascade_mode dev && (dev.is_master || dev.icw4 &&& 0x0c = 0x0c) &&
    isSet (dev.icw3.setWidth 32 &&& one_shl beyond channel)

/-- The loop of `find_best_interrupt`. -/
def bestOf (dev : Pic) : List Nat → Option Nat
  | [] => none
  | i :: rest =>
    let j := (i + dev.priority) % 8
    let b := bit j
    if isSet (dev.isr &&& b) then none
    else if dev.state = .STATE_NONE ∧ isSet (dev.irr &&& ~~~dev.imr &&& b) then some j
    else bestOf dev rest

/-- `dev->interrupt`, and whether there is any. -/
def find_best_interrupt (dev : Pic) : Pic × Bool :=
  match bestOf dev (List.range 8) with
  | some j => ({ dev with interrupt := BitVec.ofNat 8 j }, true)
  | none => ({ dev with interrupt := 0x17 }, false)

/-- `dev.int_pending = (find_best_interrupt(&dev) != -1)` -/
def findPending (dev : Pic) : Pic :=
  let (dev, found) := find_best_interrupt dev
  { dev with int_pending := found }

/-- The first controller is frozen: a poll is on, or an acknowledge. -/
def frozen (dev : Pic) : Bool := isSet (dev.interrupt &&& 0x20)

def pic_update_pending_xt (s : State) : State :=
  if frozen s.pic then s else { s with pic := findPending s.pic }

def pic_update_pending_at (s : State) : State :=
  if frozen s.pic then s
  else
    let pic2 := findPending s.pic2
    let b := (one_shl beyond pic2.icw3.toNat).setWidth 8
    let pic := { s.pic with
      irr := if pic2.int_pending then s.pic.irr ||| b else s.pic.irr &&& ~~~b }
    { s with pic := findPending pic, pic2 := pic2 }

def update_pending (s : State) : State :=
  if s.machine.is_at then pic_update_pending_at beyond s else pic_update_pending_xt s

/-! ## The end of an interrupt -/

def pic_level_triggered (machine : Machine) (dev : Pic) (irq : Nat) : Bool :=
  if machine.elcr_enabled then isSet (dev.elcr &&& bit irq) else isSet (dev.icw1 &&& 8)

def pic_acknowledge (machine : Machine) (dev : Pic) : Pic :=
  let pic_int := (dev.interrupt &&& 7).toNat
  let b := bit pic_int
  let irr :=
    if !pic_level_triggered machine dev pic_int || dev.lines (Fin.ofNat 8 pic_int) = 0 then
      dev.irr &&& ~~~b
    else dev.irr
  { dev with isr := dev.isr ||| b, irr := irr }

def pic_non_specific_find (dev : Pic) : Option Nat :=
  ((List.range 8).map fun i => (i + dev.priority) % 8).find? fun j =>
    isSet (dev.isr &&& bit j) && (!dev.special_mask_mode || !isSet (dev.imr &&& bit j))

/-- The end of the interrupt `irq`, and the rotation. -/
def pic_action (dev : Dev) (irq : Option Nat) (eoi rotate : Bool) (s : State) : State :=
  match irq with
  | none => s
  | some irq =>
    let p := s.get dev
    let p := if eoi then { p with isr := p.isr &&& ~~~bit irq } else p
    let p := if rotate then { p with priority := (irq + 1) % 8 } else p
    update_pending beyond (s.set dev p)

def pic_auto_non_specific_eoi (dev : Dev) (s : State) : State :=
  let p := s.get dev
  if isSet (p.icw4 &&& 2) then
    pic_action beyond dev (pic_non_specific_find p) true p.auto_eoi_rotate s
  else s

/-- The command in bits 7-5 of OCW2. -/
def pic_command (dev : Dev) (s : State) : State :=
  let p := s.get dev
  if isSet (p.ocw2 &&& 0x60) then
    let irq :=
      if isSet (p.ocw2 &&& 0x40) then some (p.ocw2 &&& 0x07).toNat else pic_non_specific_find p
    pic_action beyond dev irq (isSet (p.ocw2 &&& 0x20)) (isSet (p.ocw2 &&& 0x80)) s
  else s.set dev { p with auto_eoi_rotate := isSet (p.ocw2 &&& 0x80) }

/-! ## The ports -/

def pic_elcr_write (dev : Dev) (val : BitVec 8) (s : State) : State :=
  s.set dev { s.get dev with
    elcr := match dev with
      | .pic => val &&& 0xf8
      | .pic2 => val &&& 0xde }

def pic_read (dev : Dev) (a0 : Bool) (s : State) : State :=
  let p := s.get dev
  if s.machine.shadow then
    let data_bus :=
      if a0 then (p.icw2 &&& 0xf8) >>> 3
      else ((p.ocw3 &&& 0x20) >>> 5) <<< 4 ||| ((p.ocw2 &&& 0x80) >>> 7) <<< 3 |||
        ((p.icw4 &&& 0x10) >>> 4) <<< 2 ||| ((p.icw4 &&& 0x02) >>> 1) <<< 1 |||
        (p.icw4 &&& 0x08) >>> 3
    s.set dev { p with data_bus := data_bus }
  else
    let p := { p with data_bus := p.irr }
    if isSet (p.ocw3 &&& 0x04) then
      let p := { p with interrupt := p.interrupt &&& ~~~0x20 }
      if p.int_pending then
        let p := { p with data_bus := 0x80 ||| (p.interrupt &&& 7) }
        let p := pic_acknowledge s.machine p
        let s := update_pending beyond (s.set dev { p with int_pending := false })
        s.set dev { s.get dev with ocw3 := (s.get dev).ocw3 &&& ~~~0x04 }
      else s.set dev { p with data_bus := 0x00, ocw3 := p.ocw3 &&& ~~~0x04 }
    else if a0 then s.set dev { p with data_bus := p.imr }
    else if isSet (p.ocw3 &&& 0x02) && isSet (p.ocw3 &&& 0x01) then
      s.set dev { p with data_bus := p.isr }
    else s.set dev p

/-- `(dev->icw1 & 1) ? STATE_ICW4 : STATE_NONE` -/
def afterIcw3 (dev : Pic) : InitState := if isSet (dev.icw1 &&& 1) then .STATE_ICW4 else .STATE_NONE

/-- The requests that the lines of the devices make. -/
def requestsOf (lines : Fin 8 → BitVec 32) : BitVec 8 :=
  (List.finRange 8).foldl (fun irr i => if 0 < lines i then irr ||| bit i else irr) 0

/-- ICW1 starts the controller anew. -/
def icw1_write (val : BitVec 8) (dev : Pic) : Pic :=
  { dev with
    icw1 := val
    icw2 := 0x00
    icw3 := 0x00
    icw4 := if isSet (val &&& 1) then dev.icw4 else 0x00
    ocw2 := 0x00
    ocw3 := 0x00
    irr := requestsOf dev.lines
    imr := 0x00
    isr := 0x00
    ack_bytes := 0
    priority := 0
    auto_eoi_rotate := false
    special_mask_mode := false
    interrupt := 0x17
    int_pending := false
    state := .STATE_ICW2 }

def pic_write (dev : Dev) (a0 : Bool) (val : BitVec 8) (s : State) : State :=
  let p := { s.get dev with data_bus := val }
  if a0 then
    match p.state with
    | .STATE_ICW2 =>
      s.set dev { p with
        icw2 := val
        state := if pic_cascade_mode p then .STATE_ICW3 else afterIcw3 p }
    | .STATE_ICW3 => s.set dev { p with icw3 := val, state := afterIcw3 p }
    | .STATE_ICW4 => s.set dev { p with icw4 := val, state := .STATE_NONE }
    | .STATE_NONE =>
      let s := s.set dev { p with imr := val }
      -- else the mask is looked at by a timer, if ever
      if s.machine.imr_now then update_pending beyond s else s
  else if isSet (val &&& 0x10) then
    if s.machine.pci && isSet (val &&& 0xe0) then s.set dev p
    else update_pending beyond (s.set dev (icw1_write val p))
  else if isSet (val &&& 0x08) then
    let p := { p with ocw3 := val }
    let p := if isSet (val &&& 0x04) then { p with interrupt := p.interrupt ||| 0x20 } else p
    let p :=
      if isSet (val &&& 0x40) then { p with special_mask_mode := isSet (val &&& 0x20) } else p
    s.set dev p
  else pic_command beyond dev (s.set dev { p with ocw2 := val })

/-! ## The devices -/

/-- The first loop of `picint_common`: no slave's input is raised, and IRQ 2 is IRQ 9 on an AT. The
number of slaves that ICW3 names comes with it. -/
def withoutSlaves (is_at : Bool) (icw3 : BitVec 8) (num : BitVec 16) : BitVec 16 × Nat :=
  (List.range 8).foldl (fun (num, slaves) i =>
    let b : BitVec 16 := BitVec.twoPow 16 i
    if isSet (icw3 &&& bit i) then
      if isSet (num &&& b) then
        let num := num &&& ~~~b
        (if is_at ∧ i = 2 then num ||| BitVec.twoPow 16 9 else num, slaves + 1)
      else (num, slaves + 1)
    else (num, slaves)) (num, 0)

/-- A device of a level-triggered line raises or lowers it. The line goes with the number of devices
that hold it. -/
def drive (machine : Machine) (set irq_state : Bool) (num : BitVec 16) (s : State × BitVec 16)
    (i : Nat) : State × BitVec 16 :=
  let (s, lines) := s
  let dev : Dev := if i < 8 then .pic else .pic2
  let w : BitVec 16 := BitVec.twoPow 16 i
  if isSet (num &&& w) then
    let p := s.get dev
    let line := p.lines (Fin.ofNat 8 i)
    let line := if irq_state = set then line else if set then line + 1 else line - 1
    let p := { p with lines := Function.update p.lines (Fin.ofNat 8 i) line }
    let moved := !pic_level_triggered machine p (i % 8) ||
      (irq_state != set && line = (if set then 1 else 0))
    (s.set dev p, if moved then lines ||| w else lines)
  else (s, lines)

/-- The end of `picint_common`: the requests are made, or taken away. -/
def requestLines (set : Bool) (slaves : Nat) (num : BitVec 16) (s : State) : State :=
  let num := if slaves = 0 then num &&& 0x00ff else num
  if num = 0 then s
  else
    let high : BitVec 8 := (num >>> 8).setWidth 8
    let low : BitVec 8 := num.setWidth 8
    update_pending beyond <|
      if set then
        { s with
          pic := { s.pic with irr := s.pic.irr ||| low }
          pic2 := { s.pic2 with irr := s.pic2.irr ||| high } }
      else
        { s with
          pic := { s.pic with irr := s.pic.irr &&& ~~~low }
          pic2 := { s.pic2 with irr := s.pic2.irr &&& ~~~high } }

def picint_common (num : BitVec 16) (level set irq_state : Bool) (s : State) : State :=
  let (num, slaves) := withoutSlaves s.machine.is_at s.pic.icw3 num
  let max := if slaves = 0 then 8 else 16
  if num = 0 then s
  else if level then
    let (s, lines) := (List.range max).foldl (drive s.machine set irq_state num) (s, 0)
    requestLines beyond set slaves lines s
  else requestLines beyond set slaves num s

/-! ## The acknowledge cycles -/

def pic_i86_mode (dev : Pic) : Bool := isSet (dev.icw4 &&& 1)

/-- What a cycle leaves on the data bus: what the slave gives, if the request is that of a slave. -/
def cycleData (ofSlave : Nat → State → Except Fault State) (dev : Dev) (slave : Bool) (intr : Nat)
    (own : BitVec 8) (s : State) : Except Fault State :=
  if slave then
    (ofSlave intr s).map fun s => s.set dev { s.get dev with data_bus := s.pic2.data_bus }
  else .ok (s.set dev { s.get dev with data_bus := own })

/-- One cycle of the acknowledge, with what a slave does in it. -/
def ackCycle (ofSlave : Nat → State → Except Fault State) (dev : Dev) (phase : Nat) (s : State) :
    Except Fault State :=
  let p := s.get dev
  let intr := (p.interrupt &&& 0x07).toNat
  let slave := isSet (p.interrupt &&& 0x40)
  if phase = 0 then
    let p := pic_acknowledge s.machine { p with interrupt := p.interrupt ||| 0x20 }
    cycleData ofSlave dev slave intr (if pic_i86_mode p then 0xff else 0xcd) (s.set dev p)
  else if pic_i86_mode p then
    let vector := match dev, s.machine.irq_vector_override (Fin.ofNat 8 intr) with
      | .pic, some v => v
      | _, _ => BitVec.ofNat 8 intr + (p.icw2 &&& 0xf8)
    (cycleData ofSlave dev slave intr vector (s.set dev { p with int_pending := false })).map
      (pic_auto_non_specific_eoi beyond dev)
  else if phase = 1 then
    cycleData ofSlave dev slave intr
      (if isSet (p.icw1 &&& 0x04) then BitVec.ofNat 8 intr <<< 2 + (p.icw1 &&& 0xe0)
      else BitVec.ofNat 8 intr <<< 3 + (p.icw1 &&& 0xc0)) s
  else if phase = 2 then
    (cycleData ofSlave dev slave intr p.icw2 (s.set dev { p with int_pending := false })).map
      (pic_auto_non_specific_eoi beyond dev)
  else .ok s

/-- The second controller has no slaves. The first one has it, at input 2. -/
def pic_irq_ack_read (dev : Dev) (phase : Nat) (s : State) : Except Fault State :=
  match dev with
  | .pic2 => ackCycle beyond (fun x _ => .error (.noSlave x)) .pic2 phase s
  | .pic => ackCycle beyond (fun x s =>
      if x = 2 ∧ s.machine.slave2 then
        ackCycle beyond (fun x _ => .error (.noSlave x)) .pic2 phase s
      else .error (.noSlave x)) .pic phase s

/-- `pic.slaves[x]` -/
def slaveAt (s : State) (x : Nat) : Except Fault Pic :=
  if x = 2 ∧ s.machine.slave2 then return s.pic2 else throw (.noSlave x)

/-- After a cycle. The last one lets the controllers go, and looks for the next request. -/
def cycleEnd (s : State) : State :=
  let ack_bytes := (s.pic.ack_bytes + 1) % (if pic_i86_mode s.pic then 2 else 3)
  let s := { s with pic := { s.pic with ack_bytes := ack_bytes } }
  if ack_bytes = 0 then
    let s := if isSet (s.pic.interrupt &&& 0x40) then
      { s with pic2 := { s.pic2 with interrupt := 0x17 } } else s
    update_pending beyond { s with pic := { s.pic with interrupt := 0x17 } }
  else s

def nextCycle (s : State) : Except Fault State :=
  (pic_irq_ack_read beyond .pic s.pic.ack_bytes s).map (cycleEnd beyond)

def markSlave (s : State) : State :=
  { s with pic := { s.pic with interrupt := s.pic.interrupt ||| 0x40 } }

def pic_irq_ack (s : State) : Except Fault State := do
  if s.pic.ack_bytes = 0 ∧ s.pic.int_pending ∧ pic_slave_on beyond s.pic s.pic.interrupt.toNat then
    let slave ← slaveAt s s.pic.interrupt.toNat
    if !slave.int_pending then throw .fatal
    nextCycle beyond (markSlave s)
  else nextCycle beyond s

def picinterrupt (s : State) : Except Fault State := do
  let s ←
    if s.pic.int_pending then
      if pic_slave_on beyond s.pic s.pic.interrupt.toNat then do
        let slave ← slaveAt s s.pic.interrupt.toNat
        if !slave.int_pending then
          -- a spurious IRQ 7 of the second controller
          pure { s with pic2 := { s.pic2 with int_pending := true, interrupt := 0x07 } }
        else pure (markSlave s)
      else pure s
    else pure { s with pic := { s.pic with int_pending := true, interrupt := 0x07 } }
  let s ← nextCycle beyond s
  nextCycle beyond s

end

/-! ## Runs -/

inductive Op where
  | write (dev : Dev) (a0 : Bool) (val : BitVec 8)
  | read (dev : Dev) (a0 : Bool)
  | elcr_write (dev : Dev) (val : BitVec 8)
  | picint (num : BitVec 16) (level set irq_state : Bool)
  /-- The timer that looks at a new mask. -/
  | callback
  /-- The CPU takes an interrupt, which it does only with `pic.int_pending`. -/
  | picinterrupt
  /-- One acknowledge cycle of a CPU that makes them itself. -/
  | irq_ack
  | reset
deriving DecidableEq, Repr

def step (beyond : Nat → BitVec 32) (s : State) (op : Op) : Except Fault State :=
  match op with
  | .write dev a0 val => .ok (pic_write beyond dev a0 val s)
  | .read dev a0 => .ok (pic_read beyond dev a0 s)
  | .elcr_write dev val => .ok (pic_elcr_write dev val s)
  | .picint num level set irq_state => .ok (picint_common beyond num level set irq_state s)
  | .callback => .ok (update_pending beyond s)
  | .picinterrupt => if s.pic.int_pending then picinterrupt beyond s else .ok s
  | .irq_ack => pic_irq_ack beyond s
  | .reset => .ok (pic_reset s.machine)

end blumach.pic_8259
