-- The event queue of `timer.c` and `include/86box/timer.h`. Enabled timers stand
-- in a list, the first to expire at its head, and `timer_target` tells the CPU
-- when to call `timer_process`. A callback runs in the middle of
-- `timer_process`, so a state here has the stack of the calls in progress.
-- `timer_init` has run.
import BluMach.LinkedList
import BluMach.WrapOrder
import Mathlib.Data.Fintype.Card

namespace blumach.timer

open linked_list wrap_order

/-! ## The data -/

/-- What the code asks of a period, which is a double, and the longest delay
that it sets, `MAX_USEC64 * TIMER_USEC`. -/
structure PeriodOps (P : Type) where
  zero : P
  isPositive : P → Bool
  notPositive : P → Bool
  exceedsMax : P → Bool
  minusMax : P → P
  toDelay : P → BitVec 64
  maxDelay : BitVec 64

/-- A call in progress. -/
inductive Frame (τ : Type) where
  /-- `timer_process`, at the top of its loop. -/
  | loop
  /-- `timer_process`, in the callback of a timer. -/
  | callback (t : τ)
  /-- `timer_set_new_tsc`, in the `timer_process` of `update_tsc`. -/
  | newTsc (new_tsc : BitVec 64)
deriving DecidableEq

/-- The fields of each timer, the globals, and the calls in progress. The two
flags that the code uses stand on their own. -/
structure TimerState (τ P : Type) where
  ts_integer : τ → BitVec 64
  ts_frac : τ → BitVec 32
  enabled : τ → Bool
  split : τ → Bool
  in_callback : τ → Bool
  period : τ → P
  /-- `timer->callback != NULL`. -/
  callback : τ → Bool
  prev : τ → Option τ
  next : τ → Option τ
  timer_head : Option τ
  timer_target : BitVec 64
  tsc : BitVec 64
  stack : List (Frame τ)

variable {τ P : Type} [DecidableEq τ] [Fintype τ]

def TIMER_VAL_LESS_THAN_VAL (a b : BitVec 64) : Bool := decide (Before a b)

def TIMER_LESS_THAN (s : TimerState τ P) (a b : τ) : Bool :=
  TIMER_VAL_LESS_THAN_VAL (s.ts_integer a) (s.ts_integer b)

/-! ## The list

A result of `none` is a fatal error, a crash, or a loop that does not end. -/

def timer_disable (timer : τ) (s : TimerState τ P) : Option (TimerState τ P) :=
  if !s.enabled timer then some s
  else if s.next timer = none ∧ s.prev timer = none ∧ s.timer_head ≠ some timer then none
  else
    let s := { s with
      enabled := Function.update s.enabled timer false
      in_callback := Function.update s.in_callback timer false }
    let s :=
      match s.prev timer with
      | some p => { s with next := Function.update s.next p (s.next timer) }
      | none => { s with timer_head := s.next timer }
    let s :=
      match s.next timer with
      | some n => { s with prev := Function.update s.prev n (s.prev timer) }
      | none => s
    some { s with
      prev := Function.update s.prev timer none
      next := Function.update s.next timer none }

/-- The `while (1)` of `timer_enable`. It meets each timer once at most. -/
def enableLoop (timer : τ) : Nat → τ → TimerState τ P → Option (TimerState τ P)
  | 0, _, _ => none
  | fuel + 1, node, s =>
    if TIMER_LESS_THAN s timer node then
      let s := { s with next := Function.update s.next timer (some node) }
      let s := { s with prev := Function.update s.prev timer (s.prev node) }
      let s := { s with prev := Function.update s.prev node (some timer) }
      match s.prev timer with
      | some p => some { s with next := Function.update s.next p (some timer) }
      | none => some { s with timer_head := some timer, timer_target := s.ts_integer timer }
    else
      match s.next node with
      | none => some { s with
          next := Function.update s.next node (some timer)
          prev := Function.update s.prev timer (some node) }
      | some m => enableLoop timer fuel m s

def timer_enable (timer : τ) (s : TimerState τ P) : Option (TimerState τ P) := do
  let s ← if s.enabled timer then timer_disable timer s else some s
  if s.next timer ≠ none ∨ s.prev timer ≠ none then none
  else
    let s := { s with enabled := Function.update s.enabled timer true }
    match s.timer_head with
    | none => some { s with
        timer_head := some timer
        next := Function.update s.next timer none
        prev := Function.update s.prev timer none
        timer_target := s.ts_integer timer }
    | some h => enableLoop timer (Fintype.card τ) h s

/-! ## Delays -/

/-- The integer part of a delay, extended from 32 bits by its sign. -/
def intDelay (delay : BitVec 64) : BitVec 64 :=
  let int_delay := delay >>> 32
  if int_delay &&& 0x0000000080000000 ≠ 0 then int_delay ||| 0xffffffff00000000 else int_delay

def timer_advance_u64 (timer : τ) (delay : BitVec 64) (s : TimerState τ P) :
    Option (TimerState τ P) :=
  let frac_delay : BitVec 32 := delay.setWidth 32
  let carry : BitVec 64 := if frac_delay + s.ts_frac timer < frac_delay then 1 else 0
  timer_enable timer { s with
    ts_frac := Function.update s.ts_frac timer (s.ts_frac timer + frac_delay)
    ts_integer := Function.update s.ts_integer timer
      (s.ts_integer timer + carry + intDelay delay) }

def timer_set_delay_u64 (timer : τ) (delay : BitVec 64) (s : TimerState τ P) :
    Option (TimerState τ P) :=
  timer_enable timer { s with
    ts_frac := Function.update s.ts_frac timer (delay.setWidth 32)
    ts_integer := Function.update s.ts_integer timer (intDelay delay + s.tsc) }

def timer_stop (ops : PeriodOps P) (timer : τ) (s : TimerState τ P) : Option (TimerState τ P) := do
  let s := { s with period := Function.update s.period timer ops.zero }
  let s ← if s.enabled timer then timer_disable timer s else some s
  some { s with
    split := Function.update s.split timer false
    in_callback := Function.update s.in_callback timer false }

def timer_do_period (timer : τ) (period : BitVec 64) (start : Bool) (s : TimerState τ P) :
    Option (TimerState τ P) :=
  if start then timer_set_delay_u64 timer period s else timer_advance_u64 timer period s

def timer_advance_ex (ops : PeriodOps P) (timer : τ) (start : Bool) (s : TimerState τ P) :
    Option (TimerState τ P) :=
  if ops.exceedsMax (s.period timer) then do
    let s ← timer_do_period timer ops.maxDelay start s
    some { s with
      period := Function.update s.period timer (ops.minusMax (s.period timer))
      split := Function.update s.split timer true }
  else do
    let s ←
      if ops.isPositive (s.period timer) then
        timer_do_period timer (ops.toDelay (s.period timer)) start s
      else timer_disable timer s
    some { s with
      period := Function.update s.period timer ops.zero
      split := Function.update s.split timer false }

def timer_on_auto (ops : PeriodOps P) (timer : τ) (period : P) (s : TimerState τ P) :
    Option (TimerState τ P) :=
  if ops.isPositive period then
    let start := ops.notPositive (s.period timer) && !s.in_callback timer
    timer_advance_ex ops timer start { s with period := Function.update s.period timer period }
  else timer_stop ops timer s

/-! ## Expiry -/

/-- With one timer in the list the store through the new head is a crash. -/
def timer_remove_head (s : TimerState τ P) : Option (TimerState τ P) :=
  match s.timer_head with
  | none => some s
  | some timer =>
    match s.next timer with
    | none => none
    | some h =>
      let s := { s with timer_head := some h, prev := Function.update s.prev h none }
      some { s with
        next := Function.update s.next timer none
        prev := Function.update s.prev timer none
        enabled := Function.update s.enabled timer false }

/-- `timer_process` as far as its loop. -/
def timer_process (s : TimerState τ P) : TimerState τ P :=
  match s.timer_head with
  | none => s
  | some _ => { s with stack := .loop :: s.stack }

/-- One turn of the loop, for a state whose stack is `.loop :: rest`. -/
def processTurn (ops : PeriodOps P) (rest : List (Frame τ)) (s : TimerState τ P) :
    Option (TimerState τ P) :=
  match s.timer_head with
  | none => none
  | some timer =>
    if TIMER_VAL_LESS_THAN_VAL (s.ts_integer timer) s.tsc then do
      let s ← timer_remove_head s
      if s.split timer then timer_advance_ex ops timer false s
      else if s.callback timer then
        some { s with
          in_callback := Function.update s.in_callback timer true
          stack := .callback timer :: s.stack }
      else some s
    else some { s with timer_target := s.ts_integer timer, stack := rest }

/-- The `while (timer)` of `timer_set_new_tsc`. -/
def newTscLoop (new_tsc : BitVec 64) :
    Nat → Option τ → TimerState τ P → Option (TimerState τ P)
  | _, none, s => some s
  | 0, some _, _ => none
  | fuel + 1, some timer, s =>
    let offset_from_current_tsc := s.ts_integer timer - s.tsc
    let s := { s with
      ts_integer := Function.update s.ts_integer timer (new_tsc + offset_from_current_tsc) }
    newTscLoop new_tsc fuel (s.next timer) s

/-- `timer_set_new_tsc` after `update_tsc`. -/
def setNewTsc (new_tsc : BitVec 64) (s : TimerState τ P) : Option (TimerState τ P) :=
  match s.timer_head with
  | none => some { s with tsc := new_tsc }
  | some h => do
    let s := { s with timer_target := new_tsc + (s.ts_integer h - s.tsc) }
    let s ← newTscLoop new_tsc (Fintype.card τ) (some h) s
    some { s with tsc := new_tsc }

/-- `cycdiff` is what `update_tsc` adds to `tsc`, when it adds anything. -/
def timer_set_new_tsc (new_tsc : BitVec 64) (cycdiff : Option (BitVec 64)) (s : TimerState τ P) :
    Option (TimerState τ P) :=
  match cycdiff with
  | none => setNewTsc new_tsc s
  | some d =>
    let s := { s with tsc := s.tsc + d }
    if TIMER_VAL_LESS_THAN_VAL s.timer_target s.tsc ∧ s.timer_head ≠ none then
      some (timer_process { s with stack := .newTsc new_tsc :: s.stack })
    else setNewTsc new_tsc s

/-! ## Runs -/

inductive Call (τ P : Type) where
  | enable (t : τ)
  | disable (t : τ)
  | advance (t : τ) (delay : BitVec 64)
  | set_delay (t : τ) (delay : BitVec 64)
  | stop (t : τ)
  | on_auto (t : τ) (period : P)
  | set_new_tsc (new_tsc : BitVec 64) (cycdiff : Option (BitVec 64))
  | process

def call (ops : PeriodOps P) : Call τ P → TimerState τ P → Option (TimerState τ P)
  | .enable t, s => timer_enable t s
  | .disable t, s => timer_disable t s
  | .advance t delay, s => timer_advance_u64 t delay s
  | .set_delay t delay, s => timer_set_delay_u64 t delay s
  | .stop t, s => timer_stop ops t s
  | .on_auto t period, s => timer_on_auto ops t period s
  | .set_new_tsc new_tsc cycdiff, s => timer_set_new_tsc new_tsc cycdiff s
  | .process, s => some (timer_process s)

inductive Event (τ P : Type) where
  /-- The CPU or a callback makes a call. -/
  | call (c : Call τ P)
  /-- The CPU has run for some cycles. -/
  | tick (d : BitVec 64)
  /-- The call at the top of the stack goes on: a turn of the loop, the end of a
  callback, or what `timer_set_new_tsc` does after `update_tsc`. -/
  | resume

/-- The CPU runs, or a callback. -/
def CanCall (s : TimerState τ P) : Prop :=
  match s.stack with
  | [] => True
  | .callback _ :: _ => True
  | _ => False

instance (s : TimerState τ P) : Decidable (CanCall s) := by
  unfold CanCall
  split <;> infer_instance

def step (ops : PeriodOps P) : Event τ P → TimerState τ P → Option (TimerState τ P)
  | .call c, s => if CanCall s then call ops c s else none
  | .tick d, s => if CanCall s then some { s with tsc := s.tsc + d } else none
  | .resume, s =>
    match s.stack with
    | [] => none
    | .loop :: rest => processTurn ops rest s
    | .callback t :: rest =>
      some { s with in_callback := Function.update s.in_callback t false, stack := rest }
    | .newTsc new_tsc :: rest => setNewTsc new_tsc { s with stack := rest }

/-- After `timer_init`, with every timer as `timer_add` leaves it. -/
def initial (ops : PeriodOps P) (callback : τ → Bool) : TimerState τ P :=
  { ts_integer := fun _ => 0
    ts_frac := fun _ => 0
    enabled := fun _ => false
    split := fun _ => false
    in_callback := fun _ => false
    period := fun _ => ops.zero
    callback
    prev := fun _ => none
    next := fun _ => none
    timer_head := none
    timer_target := 0
    tsc := 0
    stack := [] }

end blumach.timer
