-- The 8253 and 8254 of `pit_fast.c`: one signed count for each counter. Here the counters are
-- clocked from outside: `using_timer` is 0, and what it guards is left out.
import Mathlib.Data.BitVec
import Mathlib.Logic.Function.Basic

namespace blumach.pit_fast

/-! ## State -/

/-- `ctrf_t`, less what the timer needs, `running`, which is then 0, and `load_func`. -/
structure Ctrf where
  m : Nat
  ctrl : BitVec 8
  read_status : BitVec 8
  rl : BitVec 16
  rm : Nat
  wm : Nat
  gate : Bool
  out : Bool
  newcount : Bool
  latched : Bool
  do_read_status : Bool
  enabled : Bool
  disabled : Bool
  initial : Bool
  thit : Bool
  rereadlatch : Bool
  count : Int
  l : BitVec 32
  /-- The calls of `out_func`, the new level and the old one. -/
  outs : List (Bool × Bool)
  deriving DecidableEq, Repr

/-- `pitf_t`. Only the counters 0, 1 and 2 are there. -/
structure Device where
  pit_8254 : Bool
  counters : Nat → Ctrf
  ctrl : BitVec 8

def onCounter (counter_id : Nat) (f : Ctrf → Ctrf) (pit : Device) : Device :=
  { pit with counters := Function.update pit.counters counter_id (f (pit.counters counter_id)) }

/-! ## A counter -/

def pitf_ctr_set_out (out : Bool) (ctr : Ctrf) : Ctrf :=
  { ctr with outs := ctr.outs ++ [(out, ctr.out)], out := out }

def pitf_read_timer (ctr : Ctrf) : Int := if ctr.m = 2 then ctr.count + 1 else ctr.count

/-- The count that `l` stands for. -/
def reload (ctr : Ctrf) : Int := if ctr.l ≠ 0 then ctr.l.toNat else 0x10000

/-- The switch on the mode in `pitf_ctr_load`. -/
def loadMode (ctr : Ctrf) : Ctrf :=
  let l := reload ctr
  match ctr.m with
  | 0 =>
    let ctr := pitf_ctr_set_out false { ctr with count := l }
    { ctr with thit := false, enabled := ctr.gate }
  | 1 => { ctr with enabled := true }
  | 2 =>
    let ctr :=
      if ctr.initial then
        { pitf_ctr_set_out true { ctr with count := l - 1 } with thit := false }
      else ctr
    { ctr with enabled := ctr.gate }
  | 3 =>
    let ctr :=
      if ctr.initial then
        { pitf_ctr_set_out true { ctr with count := l, newcount := l % 2 = 1 } with thit := false }
      else ctr
    { ctr with enabled := ctr.gate }
  | 4 =>
    let ctr :=
      if !ctr.thit ∧ !ctr.initial then { ctr with newcount := true }
      else { pitf_ctr_set_out false { ctr with count := l } with thit := false }
    { ctr with enabled := ctr.gate }
  | 5 => { ctr with enabled := true }
  | _ => ctr

def pitf_ctr_load (ctr : Ctrf) : Ctrf :=
  { loadMode { ctr with newcount := false, disabled := false } with initial := false }

def pitf_over (ctr : Ctrf) : Ctrf :=
  let l := reload ctr
  if ctr.disabled then { ctr with count := ctr.count + 0xffff }
  else
    match ctr.m with
    | 0 | 1 =>
      let ctr := if !ctr.thit then pitf_ctr_set_out true ctr else ctr
      { ctr with thit := true, count := ctr.count + 0xffff }
    | 2 => pitf_ctr_set_out true (pitf_ctr_set_out false { ctr with count := ctr.count + l })
    | 3 =>
      if ctr.out then
        let ctr := pitf_ctr_set_out false ctr
        { ctr with count := ctr.count + l, newcount := l % 2 = 1 }
      else
        -- half of the count is added before the whole
        let ctr := pitf_ctr_set_out true ctr
        let ctr := { ctr with count := ctr.count + (l + 1) / 2 }
        { ctr with count := ctr.count + l, newcount := l % 2 = 1 }
    | 4 =>
      let ctr :=
        if !ctr.thit then pitf_ctr_set_out true (pitf_ctr_set_out false ctr) else ctr
      if ctr.newcount then { ctr with newcount := false, count := ctr.count + l }
      else { ctr with thit := true, count := ctr.count + 0xffff }
    | 5 =>
      let ctr :=
        if !ctr.thit then pitf_ctr_set_out true (pitf_ctr_set_out false ctr) else ctr
      { ctr with thit := true, count := ctr.count + 0xffff }
    | _ => ctr

def pitf_ctr_latch_count (ctr : Ctrf) : Ctrf :=
  { ctr with
    rl := BitVec.ofInt 16 (pitf_read_timer ctr)
    rereadlatch := false
    rm := 3
    latched := true }

def pitf_ctr_latch_status (ctr : Ctrf) : Ctrf :=
  { ctr with
    read_status := (ctr.ctrl &&& 0x3f) ||| (if ctr.out then 0x80 else 0)
    do_read_status := true }

/-! ## Gate -/

/-- The switch on the mode in `pitf_set_gate_no_timer`. -/
def gateMode (gate : Bool) (ctr : Ctrf) : Ctrf :=
  let l := reload ctr
  match ctr.m with
  | 0 | 4 => { ctr with enabled := gate }
  | 1 | 5 =>
    if gate ∧ !ctr.gate then
      { pitf_ctr_set_out false { ctr with count := l } with thit := false, enabled := true }
    else ctr
  | 2 =>
    let ctr :=
      if gate ∧ !ctr.gate then
        { pitf_ctr_set_out true { ctr with count := l - 1 } with thit := false }
      else ctr
    { ctr with enabled := gate }
  | 3 =>
    let ctr :=
      if gate ∧ !ctr.gate then
        { pitf_ctr_set_out true { ctr with count := l, newcount := l % 2 = 1 } with thit := false }
      else ctr
    { ctr with enabled := gate }
  | _ => ctr

/-- `pitf_ctr_set_gate` on its counter. -/
def setGate (gate : Bool) (ctr : Ctrf) : Ctrf :=
  if ctr.disabled then { ctr with gate := gate } else { gateMode gate ctr with gate := gate }

def pitf_ctr_set_gate (counter_id : Nat) (gate : Bool) (pit : Device) : Device :=
  onCounter counter_id (setGate gate) pit

/-! ## Ports -/

/-- What the read-back command does to a counter that it selects: the counts of all of them
are latched before the status of any. -/
def readBack (val : BitVec 8) (ctr : Ctrf) : Ctrf :=
  let ctr := if val &&& 0x20 = 0 then pitf_ctr_latch_count ctr else ctr
  if val &&& 0x10 = 0 then pitf_ctr_latch_status ctr else ctr

/-- The mode of a control word. -/
def modeBits (val : BitVec 8) : Nat :=
  let m := (val >>> 1 &&& 7).toNat
  if m > 5 then m &&& 3 else m

def programMode (val : BitVec 8) (ctr : Ctrf) : Ctrf :=
  let rm := (val >>> 4 &&& 3).toNat
  let m := modeBits val
  let ctr := { ctr with ctrl := val, rm := rm, wm := rm, m := m }
  let ctr :=
    if rm = 0 then { ctr with rm := 3, rl := BitVec.ofInt 16 (pitf_read_timer ctr) } else ctr
  let ctr := { ctr with rereadlatch := true, initial := true }
  let ctr := pitf_ctr_set_out (m ≠ 0) ctr
  { ctr with disabled := true }

def controlWrite (val : BitVec 8) (dev : Device) : Device :=
  let t := (val >>> 6).toNat
  if t = 3 then
    if dev.pit_8254 then
      [0, 1, 2].foldl
        (fun dev i =>
          if val &&& ((2 : BitVec 8) <<< i) = 0 then dev else onCounter i (readBack val) dev)
        dev
    else dev
  else if val &&& 0x30 = 0 then
    { onCounter t (fun ctr => { pitf_ctr_latch_count ctr with thit := false }) dev with
      ctrl := val ||| 0x30 }
  else
    { onCounter t (fun ctr => { programMode val ctr with thit := false }) dev with ctrl := val }

/-- The switch on `wm` in `pitf_write`. -/
def dataWrite (val : BitVec 8) (ctr : Ctrf) : Ctrf :=
  match ctr.wm with
  | 1 => pitf_ctr_load { ctr with l := val.setWidth 32 }
  | 2 => pitf_ctr_load { ctr with l := val.setWidth 32 <<< 8 }
  | 0 =>
    { pitf_ctr_load { ctr with l := ctr.l &&& 0xff#32 ||| val.setWidth 32 <<< 8 } with wm := 3 }
  | 3 => { ctr with l := ctr.l &&& 0xff00#32 ||| val.setWidth 32, wm := 0 }
  | _ => ctr

def pitf_write (addr : BitVec 16) (val : BitVec 8) (dev : Device) : Device :=
  if addr &&& 3 = 3 then controlWrite val dev
  else onCounter (addr &&& 3).toNat (dataWrite val) dev

/-! ## Reset -/

def ctr_reset : Ctrf where
  m := 0
  ctrl := 0
  read_status := 0
  rl := 0
  rm := 0
  wm := 0
  gate := false
  out := false
  newcount := false
  latched := false
  do_read_status := false
  enabled := false
  disabled := false
  initial := false
  thit := true
  rereadlatch := false
  count := 0
  l := 0xffff
  outs := []

def pitf_reset (pit_8254 : Bool) : Device where
  pit_8254 := pit_8254
  counters := fun _ => ctr_reset
  ctrl := 0

/-! ## Clocks -/

/-- `pitf_ctr_clock` on its counter. -/
def clock (ctr : Ctrf) : Ctrf :=
  if ctr.thit ∨ !ctr.enabled then ctr
  else
    let ctr :=
      if ctr.m = 3 ∧ ctr.newcount then
        { ctr with count := ctr.count - (if ctr.out then 1 else 3), newcount := false }
      else { ctr with count := ctr.count - (if ctr.m = 3 then 2 else 1) }
    if ctr.count = 0 then pitf_over ctr else ctr

def pitf_ctr_clock (counter_id : Nat) (pit : Device) : Device := onCounter counter_id clock pit

/-- How often `out_func` has been told of a rising edge. -/
def edges (ctr : Ctrf) : Nat := ctr.outs.count (true, false)

end blumach.pit_fast
