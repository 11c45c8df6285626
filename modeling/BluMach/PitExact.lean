-- The 8253 and 8254 of `pit_exact.c`: three channels, each a small state machine that is
-- stepped once for every clock of its input.
import Mathlib.Data.BitVec
import Mathlib.Logic.Function.Basic

namespace blumach.pit_exact

/-! ## State -/

inductive PitxType where
  | PITX_8253
  | PITX_8254
  deriving DecidableEq, Repr

inductive PitxState where
  | PITX_WAIT_COUNT
  | PITX_WAIT_TRIGGER
  | PITX_WAIT_GATE
  | PITX_LOAD_NEXT
  | PITX_COUNTING
  | PITX_RELOAD_NEXT
  | PITX_STROBE_RECOVER
  | PITX_DONE
  deriving DecidableEq, Repr

open PitxType PitxState

/-- `pitx_channel_t`, less `clocks`, which nothing reads. -/
structure Channel where
  type : PitxType
  control : BitVec 8
  mode_raw : Nat
  mode : Nat
  rw_mode : Nat
  bcd : Bool
  write_phase : Nat
  read_phase : Nat
  count_latched : Bool
  status_latched : Bool
  output_latch : BitVec 16
  status_latch : BitVec 8
  count_register : BitVec 16
  /-- 0x10000 is the reload of zero, and no store is larger. -/
  counting_element : Nat
  null_count : Bool
  gate : Bool
  output : Bool
  armed : Bool
  initial_load : Bool
  incomplete_reload : Bool
  ce_undefined : Bool
  toggle_on_reload : Bool
  state : PitxState
  deriving DecidableEq, Repr

/-- `pitx_device_t`. Only the channels 0, 1 and 2 are there. -/
structure Device where
  type : PitxType
  channel : Nat → Channel
  last_control : BitVec 8

def onChannel (channel : Nat) (f : Channel → Channel) (pit : Device) : Device :=
  { pit with channel := Function.update pit.channel channel (f (pit.channel channel)) }

/-! ## The counting element -/

def canonical_mode (raw : Nat) : Nat :=
  let raw := raw &&& 7
  if raw > 5 then raw &&& 3 else raw

/-- Both arms of the test on `bcd` are this. -/
def reload_value (c : Channel) : Nat :=
  if c.count_register ≠ 0 then c.count_register.toNat else 0x10000

def visible_count (value : Nat) : BitVec 16 :=
  if value = 0x10000 then 0 else BitVec.ofNat 16 value

def update_live_latch (c : Channel) : Channel :=
  if c.count_latched then c else { c with output_latch := visible_count c.counting_element }

def bcd_decrement (value : Nat) : Nat :=
  if value = 0 ∨ value = 0x10000 then 0x9999
  else if value &&& 0x000f ≠ 0 then (value - 1) &&& 0xffff
  else if value &&& 0x00f0 ≠ 0 then (value - 0x0007) &&& 0xffff
  else if value &&& 0x0f00 ≠ 0 then (value - 0x0067) &&& 0xffff
  else (value - 0x0667) &&& 0xffff

/-- The store of `decrement`. -/
def decrementValue (bcd : Bool) (value : Nat) : Nat :=
  if bcd then bcd_decrement value
  else if value = 0 then 0xffff
  else if value = 0x10000 then 0xffff
  else (value - 1) &&& 0xffff

def decrement (c : Channel) : Channel :=
  update_live_latch { c with counting_element := decrementValue c.bcd c.counting_element }

def decrement_n (c : Channel) : Nat → Channel
  | 0 => c
  | n + 1 => decrement_n (decrement c) n

def set_output (c : Channel) (output : Bool) : Channel := { c with output := output }

/-- The switch on the mode that ends `load_counting_element`. -/
def loadOutput (c : Channel) : Channel :=
  match c.mode with
  | 0 => { set_output c false with state := PITX_COUNTING }
  | 1 => { set_output c false with state := PITX_COUNTING }
  | 2 => { set_output c true with state := if c.gate then PITX_COUNTING else PITX_WAIT_GATE }
  | 3 =>
    let c :=
      if c.toggle_on_reload then { set_output c (!c.output) with toggle_on_reload := false }
      else if c.state ≠ PITX_RELOAD_NEXT then set_output c true
      else c
    { c with state := if c.gate then PITX_COUNTING else PITX_WAIT_GATE }
  | 4 => { set_output c true with state := PITX_COUNTING }
  | 5 => { set_output c true with state := PITX_COUNTING }
  | _ => c

def load_counting_element (c : Channel) : Channel :=
  let load := reload_value c
  let load :=
    if c.type = PITX_8254 ∧ c.mode = 3 ∧ c.count_register &&& 1 ≠ 0 then load &&& 0xfffe
    else load
  let c := { c with counting_element := load, null_count := false, ce_undefined := false }
  let c := if c.rw_mode = 3 ∧ c.write_phase = 1 then { c with incomplete_reload := true } else c
  loadOutput (update_live_latch c)

/-! ## Reset and programming -/

def reset_channel (type : PitxType) : Channel where
  type := type
  control := 0
  mode_raw := 0
  mode := 0
  rw_mode := 1
  bcd := false
  write_phase := 0
  read_phase := 0
  count_latched := false
  status_latched := false
  output_latch := 0
  status_latch := 0
  count_register := 0
  counting_element := 0
  null_count := true
  gate := false
  output := false
  armed := false
  initial_load := true
  incomplete_reload := false
  ce_undefined := false
  toggle_on_reload := false
  state := PITX_WAIT_COUNT

def pitx_reset (type : PitxType) : Device where
  type := type
  channel := fun _ => reset_channel type
  last_control := 0

def latch_count (c : Channel) : Channel :=
  if c.count_latched then c
  else
    { c with
      output_latch := visible_count c.counting_element
      count_latched := true
      read_phase := 0 }

def latch_status (c : Channel) : Channel :=
  if c.status_latched then c
  else
    { c with
      status_latch :=
        (if c.output then 0x80 else 0) ||| (if c.null_count then 0x40 else 0) |||
          (c.control &&& 0x3f)
      status_latched := true }

def program_mode (control : BitVec 8) (c : Channel) : Channel :=
  let mode_raw := (control >>> 1 &&& 7).toNat
  let mode := canonical_mode mode_raw
  { c with
    control := control
    mode_raw := mode_raw
    mode := mode
    rw_mode := (control >>> 4 &&& 3).toNat
    bcd := control &&& 1 ≠ 0
    write_phase := 0
    read_phase := 0
    count_latched := false
    status_latched := false
    null_count := true
    armed := false
    initial_load := true
    incomplete_reload := false
    ce_undefined := true
    toggle_on_reload := false
    state := PITX_WAIT_COUNT
    output := mode ≠ 0 }

/-- What the read-back command does to a channel that it selects. -/
def readBack (value : BitVec 8) (c : Channel) : Channel :=
  let c := if value &&& 0x20 = 0 then latch_count c else c
  if value &&& 0x10 = 0 then latch_status c else c

def pitx_control_write (value : BitVec 8) (pit : Device) : Device :=
  let select := (value >>> 6).toNat
  let pit := { pit with last_control := value }
  if select = 3 then
    if pit.type ≠ PITX_8254 then pit
    else
      [0, 1, 2].foldl
        (fun pit i =>
          if value &&& ((2 : BitVec 8) <<< i) = 0 then pit else onChannel i (readBack value) pit)
        pit
  else if value &&& 0x30 = 0 then onChannel select latch_count pit
  else onChannel select (program_mode value) pit

/-! ## Counts -/

def finalize_write (c : Channel) : Channel :=
  let c :=
    if c.count_register = 1 then
      if c.mode = 2 then { c with count_register := 2 }
      else if c.mode = 3 then { c with count_register := 0 }
      else c
    else c
  let c := { c with null_count := true, armed := true }
  if c.initial_load then
    { c with
      initial_load := false
      state := if c.mode = 1 ∨ c.mode = 5 then PITX_WAIT_TRIGGER else PITX_LOAD_NEXT }
  else
    { c with
      state := if c.incomplete_reload ∨ c.mode = 0 ∨ c.mode = 4 then PITX_LOAD_NEXT else c.state
      incomplete_reload := false }

/-- `pitx_data_write` on its channel. -/
def dataWrite (value : BitVec 8) (c : Channel) : Channel :=
  match c.rw_mode with
  | 1 => finalize_write { c with count_register := value.setWidth 16 }
  | 2 => finalize_write { c with count_register := value.setWidth 16 <<< 8 }
  | 3 =>
    if c.write_phase = 0 then
      let c :=
        { c with
          count_register := c.count_register &&& 0xff00#16 ||| value.setWidth 16
          write_phase := 1 }
      if c.mode = 0 then { c with state := PITX_WAIT_COUNT, output := false } else c
    else
      finalize_write
        { c with
          count_register := c.count_register &&& 0x00ff#16 ||| value.setWidth 16 <<< 8
          write_phase := 0 }
  | _ => c

def pitx_data_write (channel : Nat) (value : BitVec 8) (pit : Device) : Device :=
  if channel ≥ 3 then pit else onChannel channel (dataWrite value) pit

/-- `pitx_data_read` on its channel. -/
def dataRead (c : Channel) : Channel × BitVec 8 :=
  if c.status_latched then ({ c with status_latched := false }, c.status_latch)
  else
    let value := if c.count_latched then c.output_latch else visible_count c.counting_element
    -- the pending low byte of an unfinished write
    if !c.count_latched ∧ c.rw_mode = 3 ∧ c.write_phase = 1 then
      (c, ~~~(c.count_register &&& 0xff).setWidth 8)
    else
      match c.rw_mode with
      | 1 => ({ c with count_latched := false }, value.setWidth 8)
      | 2 => ({ c with count_latched := false }, (value >>> 8).setWidth 8)
      | 3 =>
        if c.read_phase = 0 then ({ c with read_phase := 1 }, value.setWidth 8)
        else ({ c with read_phase := 0, count_latched := false }, (value >>> 8).setWidth 8)
      | _ => (c, 0)

def pitx_data_read (channel : Nat) (pit : Device) : Device × BitVec 8 :=
  if channel ≥ 3 then (pit, 0xff)
  else (onChannel channel (fun c => (dataRead c).1) pit, (dataRead (pit.channel channel)).2)

/-! ## Gate -/

/-- `pitx_set_gate` on its channel. -/
def setGate (gate : Bool) (c : Channel) : Channel :=
  let old := c.gate
  let c := { c with gate := gate }
  if !old ∧ gate then
    match c.mode with
    | 1 | 5 =>
      if c.state ≠ PITX_WAIT_COUNT then { c with armed := true, state := PITX_LOAD_NEXT } else c
    | 2 | 3 => if c.state ≠ PITX_WAIT_COUNT then { c with state := PITX_LOAD_NEXT } else c
    | _ => c
  else if old ∧ !gate then
    match c.mode with
    | 2 | 3 =>
      let c := set_output c true
      if c.state ≠ PITX_WAIT_COUNT then { c with state := PITX_WAIT_GATE } else c
    | _ => c
  else c

def pitx_set_gate (channel : Nat) (gate : Bool) (pit : Device) : Device :=
  if channel ≥ 3 then pit else onChannel channel (setGate gate) pit

/-! ## Ticks -/

def count_mode3 (c : Channel) : Channel :=
  let odd := c.count_register &&& 1 ≠ 0
  if odd ∧ c.type = PITX_8254 then
    let c := decrement_n c 2
    if visible_count c.counting_element = 0 then
      if c.output then { c with toggle_on_reload := true, state := PITX_RELOAD_NEXT }
      else
        update_live_latch
          { set_output c true with counting_element := reload_value c &&& 0xfffe }
    else c
  else
    let c :=
      if odd ∧ c.counting_element &&& 1 ≠ 0 then decrement_n c (if c.output then 1 else 3)
      else decrement_n c 2
    if visible_count c.counting_element = 0 then
      update_live_latch { set_output c (!c.output) with counting_element := reload_value c }
    else c

/-- The counting half of `pitx_tick_channel`. -/
def countTick (c : Channel) : Channel :=
  match c.mode with
  | 0 =>
    if c.gate then
      let c := decrement c
      if visible_count c.counting_element = 0 then set_output c true else c
    else c
  | 1 =>
    let c := decrement c
    if visible_count c.counting_element = 0 then
      let c := if c.armed then set_output c true else c
      { c with armed := false }
    else c
  | 2 =>
    if c.gate then
      let c := decrement c
      if visible_count c.counting_element = 1 then
        { set_output c false with state := PITX_RELOAD_NEXT }
      else c
    else c
  | 3 => if c.gate then count_mode3 c else c
  | 4 =>
    if c.gate then
      let c := decrement c
      if visible_count c.counting_element = 0 then
        { set_output c false with state := PITX_STROBE_RECOVER }
      else c
    else c
  | 5 =>
    let c := decrement c
    if visible_count c.counting_element = 0 then
      { set_output c false with armed := false, state := PITX_STROBE_RECOVER }
    else c
  | _ => c

/-- `pitx_tick_channel` on its channel. -/
def tick (c : Channel) : Channel :=
  match c.state with
  | PITX_LOAD_NEXT => load_counting_element c
  | PITX_RELOAD_NEXT => load_counting_element c
  | PITX_STROBE_RECOVER => { set_output c true with state := PITX_COUNTING }
  | PITX_WAIT_TRIGGER =>
    if c.ce_undefined ∧ c.armed then update_live_latch { c with counting_element := 3 } else c
  | PITX_WAIT_COUNT => c
  | PITX_WAIT_GATE => c
  | PITX_DONE => c
  | PITX_COUNTING => countTick c

def pitx_tick_channel (channel : Nat) (pit : Device) : Device :=
  if channel ≥ 3 then pit else onChannel channel tick pit

def pitx_get_output (channel : Nat) (pit : Device) : Bool :=
  decide (channel < 3) && (pit.channel channel).output

/-! ## Calls -/

inductive Call where
  | control_write (value : BitVec 8)
  | data_write (channel : Nat) (value : BitVec 8)
  | data_read (channel : Nat)
  | set_gate (channel : Nat) (gate : Bool)
  | tick_channel (channel : Nat)
  deriving DecidableEq, Repr

def call (pit : Device) : Call → Device
  | .control_write value => pitx_control_write value pit
  | .data_write channel value => pitx_data_write channel value pit
  | .data_read channel => (pitx_data_read channel pit).1
  | .set_gate channel gate => pitx_set_gate channel gate pit
  | .tick_channel channel => pitx_tick_channel channel pit

def run (pit : Device) (calls : List Call) : Device := calls.foldl call pit

end blumach.pit_exact
