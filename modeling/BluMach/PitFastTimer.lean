-- The counters of `pit_fast.c` with their timers: what `PitFast` leaves out, and the reads of the
-- ports. The timer of a counter is any state with the calls that `pit_fast.c` makes of it.
import BluMach.PitFast
import BluMach.Observers
import Mathlib.Data.Fin.Basic

namespace blumach.pit_fast.timed

/-- For the literals of `Fin 6`. -/
scoped instance neZero_6 : @NeZero Nat Zero.ofOfNat0 6 := ⟨by decide⟩

/-! ## State -/

/-- The calls of `timer.h`. -/
structure TimerOps (τ : Type) where
  set_delay_u64 : BitVec 64 → τ → τ
  advance_u64 : BitVec 64 → τ → τ
  disable : τ → τ
  is_enabled : τ → Bool
  get_remaining_u64 : τ → Nat

/-- The fields of `ctrf_t` that counting reads or writes, without `load_func`. The control words
give modes up to 5. -/
structure Counting (τ : Type) where
  m : Fin 6
  wm : Nat
  gate : Bool
  out : Bool
  newcount : Bool
  using_timer : Bool
  enabled : Bool
  disabled : Bool
  initial : Bool
  thit : Bool
  running : Bool
  count : Int
  l : BitVec 32
  pit_const : BitVec 64
  timer : τ
  /-- The levels of the calls of `pitf_ctr_set_out` that have changed OUT. -/
  changes : List Bool

/-- The fields that only the reads of the ports look at. -/
structure Latches where
  ctrl : BitVec 8
  read_status : BitVec 8
  rl : BitVec 16
  rm : Nat
  latched : Bool
  do_read_status : Bool
  rereadlatch : Bool

/-- `ctrf_t`. -/
structure Ctrf (τ : Type) extends Counting τ, Latches

/-- `pitf_t`. Only the counters 0, 1 and 2 are there. -/
structure Device (τ : Type) where
  pit_8254 : Bool
  counters : Nat → Ctrf τ
  ctrl : BitVec 8

variable {τ : Type} (ops : TimerOps τ)

def onCounter (i : Nat) (f : Ctrf τ → Ctrf τ) (dev : Device τ) : Device τ :=
  { dev with counters := Function.update dev.counters i (f (dev.counters i)) }

/-! ## A counter -/

def pitf_ctr_set_out (out : Bool) (ctr : Counting τ) : Counting τ :=
  { ctr with
    changes := if out ≠ ctr.out then ctr.changes ++ [out] else ctr.changes
    out := out }

def pitf_read_timer (ctr : Counting τ) : Int :=
  if ctr.using_timer ∧ ¬ (ctr.m = 3 ∧ !ctr.gate) ∧ ops.is_enabled ctr.timer then
    if ctr.pit_const = 0 then 0x10000
    else
      let read := (BitVec.ofNat 32 (ops.get_remaining_u64 ctr.timer / ctr.pit_const.toNat)).toInt
      let read := if ctr.m = 2 then read + 1 else read
      let read := if read < 0 then 0 else read
      let read := if read > 0x10000 then 0x10000 else read
      if ctr.m = 3 ∧ ctr.using_timer then read * 2 else read
  else if ctr.m = 2 then ctr.count + 1
  else ctr.count

def pitf_dump_and_disable_timer (ctr : Counting τ) : Counting τ :=
  if ctr.using_timer ∧ ops.is_enabled ctr.timer then
    let count := pitf_read_timer ops ctr
    { ctr with
      count := if ctr.m = 2 then count - 1 else count
      timer := ops.disable ctr.timer }
  else ctr

/-- `timer_set_delay_u64` of so many counts, where the counter has a timer. -/
def setDelay (n : Int) (ctr : Counting τ) : Counting τ :=
  if ctr.using_timer then
    { ctr with timer := ops.set_delay_u64 (BitVec.ofInt 64 n * ctr.pit_const) ctr.timer }
  else ctr

/-- `timer_advance_u64`, likewise. -/
def advance (n : Int) (ctr : Counting τ) : Counting τ :=
  if ctr.using_timer then
    { ctr with timer := ops.advance_u64 (BitVec.ofInt 64 n * ctr.pit_const) ctr.timer }
  else ctr

/-- The end of a load, of a change of the gate and of `pitf_over`. -/
def setRunning (ctr : Counting τ) : Counting τ :=
  let ctr := { ctr with running := ctr.enabled && ctr.using_timer && !ctr.disabled }
  if ctr.using_timer ∧ !ctr.running then pitf_dump_and_disable_timer ops ctr else ctr

/-- The count that `l` stands for. -/
def reload (ctr : Counting τ) : Int := if ctr.l ≠ 0 then ctr.l.toNat else 0x10000

/-- A new count for mode 3. -/
def squareCount (ctr : Counting τ) : Counting τ :=
  let l := reload ctr
  let ctr := { ctr with count := l }
  if ctr.using_timer then setDelay ops ((l + 1) / 2) ctr else { ctr with newcount := l % 2 = 1 }

/-- The switch on the mode in `pitf_ctr_load`. -/
def loadMode (ctr : Counting τ) : Counting τ :=
  let l := reload ctr
  match ctr.m with
  | 0 =>
    let ctr := pitf_ctr_set_out false (setDelay ops l { ctr with count := l })
    { ctr with thit := false, enabled := ctr.gate }
  | 1 => { ctr with enabled := true }
  | 2 =>
    let ctr :=
      if ctr.initial then
        { pitf_ctr_set_out true (setDelay ops (l - 1) { ctr with count := l - 1 }) with
          thit := false }
      else ctr
    { ctr with enabled := ctr.gate }
  | 3 =>
    let ctr :=
      if ctr.initial then { pitf_ctr_set_out true (squareCount ops ctr) with thit := false }
      else ctr
    { ctr with enabled := ctr.gate }
  | 4 =>
    let ctr :=
      if !ctr.thit ∧ !ctr.initial then { ctr with newcount := true }
      else
        { pitf_ctr_set_out false (setDelay ops l { ctr with count := l }) with thit := false }
    { ctr with enabled := ctr.gate }
  | 5 => { ctr with enabled := true }

def pitf_ctr_load (ctr : Counting τ) : Counting τ :=
  setRunning ops
    { loadMode ops { ctr with newcount := false, disabled := false } with initial := false }

/-- The switch on the mode in `pitf_over`. -/
def overMode (ctr : Counting τ) : Counting τ :=
  let l := reload ctr
  match ctr.m with
  | 0 | 1 =>
    let ctr := if !ctr.thit then pitf_ctr_set_out true ctr else ctr
    advance ops 0xffff { ctr with thit := true, count := ctr.count + 0xffff }
  | 2 =>
    pitf_ctr_set_out true
      (pitf_ctr_set_out false (advance ops l { ctr with count := ctr.count + l }))
  | 3 =>
    if ctr.out then
      let ctr := pitf_ctr_set_out false ctr
      if ctr.using_timer then advance ops (l / 2) { ctr with count := ctr.count + l / 2 }
      else { ctr with count := ctr.count + l, newcount := l % 2 = 1 }
    else
      let ctr := pitf_ctr_set_out true ctr
      let ctr := { ctr with count := ctr.count + (l + 1) / 2 }
      if ctr.using_timer then advance ops ((l + 1) / 2) { ctr with count := ctr.count + l / 2 }
      else { ctr with count := ctr.count + l, newcount := l % 2 = 1 }
  | 4 =>
    let ctr :=
      if !ctr.thit then pitf_ctr_set_out true (pitf_ctr_set_out false ctr) else ctr
    if ctr.newcount then advance ops l { ctr with newcount := false, count := ctr.count + l }
    else advance ops 0xffff { ctr with thit := true, count := ctr.count + 0xffff }
  | 5 =>
    let ctr :=
      if !ctr.thit then pitf_ctr_set_out true (pitf_ctr_set_out false ctr) else ctr
    advance ops 0xffff { ctr with thit := true, count := ctr.count + 0xffff }

def pitf_over (ctr : Counting τ) : Counting τ :=
  if ctr.disabled then advance ops 0xffff { ctr with count := ctr.count + 0xffff }
  else setRunning ops (overMode ops ctr)

/-! ## Gate -/

/-- The switch on the mode in `pitf_set_gate_no_timer`. -/
def gateMode (gate : Bool) (ctr : Counting τ) : Counting τ :=
  let l := reload ctr
  match ctr.m with
  | 0 | 4 => { (if !ctr.running then setDelay ops l ctr else ctr) with enabled := gate }
  | 1 | 5 =>
    if gate ∧ !ctr.gate then
      { pitf_ctr_set_out false (setDelay ops l { ctr with count := l }) with
        thit := false
        enabled := true }
    else ctr
  | 2 =>
    let ctr :=
      if gate ∧ !ctr.gate then
        { pitf_ctr_set_out true (setDelay ops l { ctr with count := l - 1 }) with thit := false }
      else ctr
    { ctr with enabled := gate }
  | 3 =>
    let ctr :=
      if gate ∧ !ctr.gate then
        { pitf_ctr_set_out true (squareCount ops ctr) with thit := false }
      else ctr
    { ctr with enabled := gate }

/-- `pitf_ctr_set_gate` on its counter. -/
def setGate (gate : Bool) (ctr : Counting τ) : Counting τ :=
  if ctr.disabled then { ctr with gate := gate }
  else setRunning ops { gateMode ops gate ctr with gate := gate }

/-! ## Clocks -/

/-- `pitf_ctr_clock` on its counter. -/
def clock (ctr : Counting τ) : Counting τ :=
  if ctr.thit ∨ !ctr.enabled then ctr
  else if ctr.using_timer then ctr
  else
    let ctr :=
      if ctr.m = 3 ∧ ctr.newcount then
        { ctr with count := ctr.count - (if ctr.out then 1 else 3), newcount := false }
      else { ctr with count := ctr.count - (if ctr.m = 3 then 2 else 1) }
    if ctr.count = 0 then pitf_over ops ctr else ctr

/-- Time goes by on the timer of a counter. Where the timer expires, `pitf_timer_over` is
called. -/
def timePasses (elapse : τ → τ × Bool) (ctr : Counting τ) : Counting τ :=
  let (timer, expired) := elapse ctr.timer
  let ctr := { ctr with timer := timer }
  if expired then pitf_over ops ctr else ctr

/-- A call that counts leaves the latches as they are. -/
def counting (f : Counting τ → Counting τ) (ctr : Ctrf τ) : Ctrf τ :=
  { ctr with toCounting := f ctr.toCounting }

/-! ## Ports -/

def pitf_ctr_latch_count (ctr : Ctrf τ) : Ctrf τ :=
  { ctr with
    rl := BitVec.ofInt 16 (pitf_read_timer ops ctr.toCounting)
    rereadlatch := false
    rm := 3
    latched := true }

def pitf_ctr_latch_status (ctr : Ctrf τ) : Ctrf τ :=
  { ctr with
    read_status := (ctr.ctrl &&& 0x3f) ||| (if ctr.out then 0x80 else 0)
    do_read_status := true }

/-- What the read-back command does to a counter that it selects: the counts of all of them
are latched before the status of any. -/
def readBack (val : BitVec 8) (ctr : Ctrf τ) : Ctrf τ :=
  let ctr := if val &&& 0x20 = 0 then pitf_ctr_latch_count ops ctr else ctr
  if val &&& 0x10 = 0 then pitf_ctr_latch_status ctr else ctr

/-- The mode of a control word: 6 and 7 are 2 and 3. -/
def modeBits (val : BitVec 8) : Fin 6 :=
  match (val >>> 1 &&& 7).toNat with
  | 0 => 0
  | 1 => 1
  | 2 | 6 => 2
  | 3 | 7 => 3
  | 4 => 4
  | _ => 5

def programMode (val : BitVec 8) (ctr : Ctrf τ) : Ctrf τ :=
  let rm := (val >>> 4 &&& 3).toNat
  let m := modeBits val
  let ctr := { ctr with ctrl := val, rm := rm, wm := rm, m := m }
  let ctr :=
    if rm = 0 then
      { ctr with rm := 3, rl := BitVec.ofInt 16 (pitf_read_timer ops ctr.toCounting) }
    else ctr
  let ctr := { ctr with rereadlatch := true, initial := true }
  let ctr := counting (pitf_ctr_set_out (m ≠ 0)) ctr
  { ctr with disabled := true }

def controlWrite (val : BitVec 8) (dev : Device τ) : Device τ :=
  let t := (val >>> 6).toNat
  if t = 3 then
    if dev.pit_8254 then
      [0, 1, 2].foldl
        (fun dev i =>
          if val &&& ((2 : BitVec 8) <<< i) = 0 then dev else onCounter i (readBack ops val) dev)
        dev
    else dev
  else if val &&& 0x30 = 0 then
    { onCounter t (fun ctr => { pitf_ctr_latch_count ops ctr with thit := false }) dev with
      ctrl := val ||| 0x30 }
  else
    { onCounter t (fun ctr => { programMode ops val ctr with thit := false }) dev with ctrl := val }

/-- The switch on `wm` in `pitf_write`. -/
def dataWrite (val : BitVec 8) (ctr : Counting τ) : Counting τ :=
  match ctr.wm with
  | 1 => pitf_ctr_load ops { ctr with l := val.setWidth 32 }
  | 2 => pitf_ctr_load ops { ctr with l := val.setWidth 32 <<< 8 }
  | 0 =>
    { pitf_ctr_load ops { ctr with l := ctr.l &&& 0xff#32 ||| val.setWidth 32 <<< 8 } with wm := 3 }
  | 3 => { ctr with l := ctr.l &&& 0xff00#32 ||| val.setWidth 32, wm := 0 }
  | _ => ctr

def pitf_write (addr : BitVec 16) (val : BitVec 8) (dev : Device τ) : Device τ :=
  if addr &&& 3 = 3 then controlWrite ops val dev
  else onCounter (addr &&& 3).toNat (counting (dataWrite ops val)) dev

/-- The switch on `rm` in `pitf_read`. -/
def readByte (ctr : Ctrf τ) : BitVec 8 × Ctrf τ :=
  match ctr.rm with
  | 0 => ((ctr.rl >>> 8).setWidth 8, { ctr with rm := 3, latched := false, rereadlatch := true })
  | 1 => (ctr.rl.setWidth 8, { ctr with latched := false, rereadlatch := true })
  | 2 => ((ctr.rl >>> 8).setWidth 8, { ctr with latched := false, rereadlatch := true })
  -- no mode has the bit `0x80` that the source looks for here
  | 3 => (ctr.rl.setWidth 8, { ctr with rm := 0 })
  | _ => (0xff, ctr)

def dataRead (ctr : Ctrf τ) : BitVec 8 × Ctrf τ :=
  if ctr.do_read_status then (ctr.read_status, { ctr with do_read_status := false })
  else
    readByte
      (if ctr.rereadlatch ∧ !ctr.latched then
        { ctr with
          rereadlatch := false
          rl := BitVec.ofInt 16 (pitf_read_timer ops ctr.toCounting) }
      else ctr)

def pitf_read (addr : BitVec 16) (dev : Device τ) : BitVec 8 × Device τ :=
  if addr &&& 3 = 3 then (if dev.pit_8254 then dev.ctrl else 0x00, dev)
  else
    let t := (addr &&& 3).toNat
    ((dataRead ops (dev.counters t)).1, onCounter t (fun ctr => (dataRead ops ctr).2) dev)

/-! ## Reset -/

/-- `ctr_reset`, after the `memset` of `pitf_reset`. The counts are given to the timer later. -/
def ctr_reset (pit_const : BitVec 64) (timer : τ) : Ctrf τ where
  m := 0
  wm := 0
  gate := false
  out := false
  newcount := false
  using_timer := true
  enabled := false
  disabled := false
  initial := false
  thit := true
  running := false
  count := 0
  l := 0xffff
  pit_const := pit_const
  timer := timer
  changes := []
  ctrl := 0
  read_status := 0
  rl := 0
  rm := 0
  latched := false
  do_read_status := false
  rereadlatch := false

def pitf_reset (pit_8254 : Bool) (pit_const : BitVec 64) (timer : τ) : Device τ where
  pit_8254 := pit_8254
  counters := fun _ => ctr_reset pit_const timer
  ctrl := 0

/-! ## Histories -/

inductive Event (τ : Type)
  | clock (counter_id : Nat)
  | time (counter_id : Nat) (elapse : τ → τ × Bool)
  | gate (counter_id : Nat) (gate : Bool)
  | write (addr : BitVec 16) (val : BitVec 8)
  | read (addr : BitVec 16)

def step : Event τ → Device τ → Device τ
  | .clock i, dev => onCounter i (counting (clock ops)) dev
  | .time i elapse, dev => onCounter i (counting (timePasses ops elapse)) dev
  | .gate i gate, dev => onCounter i (counting (setGate ops gate)) dev
  | .write addr val, dev => pitf_write ops addr val dev
  | .read addr, dev => (pitf_read ops addr dev).2

def run (es : List (Event τ)) (dev : Device τ) : Device τ := observers.run (step ops) es dev

end blumach.pit_fast.timed
