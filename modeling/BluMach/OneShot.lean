-- A one-shot timer: it is armed by a count or by a trigger, counts down once, and fires once.
import Mathlib.Logic.Function.Iterate
import Mathlib.Tactic.SplitIfs

namespace one_shot

structure OneShot where
  /-- A rising gate arms it, and not the count. -/
  triggered : Bool
  /-- It fires with one low clock, and does not end a low level. -/
  strobes : Bool
  /-- A new count ends the old level at once, and not when it is loaded. -/
  drops : Bool
  /-- How many clocks its counter takes to come round. -/
  m : Nat

inductive Phase where
  /-- No count yet. -/
  | idle
  /-- Not yet triggered. -/
  | ready
  /-- The next clock loads the count. -/
  | loading
  | counting (left : Nat)
  /-- The low clock of a strobe. -/
  | pulse
  /-- It has fired, and so many clocks have been counted since. -/
  | spent (since : Nat)
  deriving DecidableEq

structure Shot where
  phase : Phase
  out : Bool
  gate : Bool
  n : Nat
  deriving DecidableEq

/-- The gate stops the clocks of a timer that it does not trigger. -/
def OneShot.enabled (t : OneShot) (s : Shot) : Bool := t.triggered || s.gate

def OneShot.tick (t : OneShot) (s : Shot) : Shot :=
  match s.phase with
  | .idle => s
  | .ready => s
  | .loading => { s with phase := .counting s.n, out := t.strobes }
  | .counting left =>
    if t.enabled s = true then
      if left = 1 then
        if t.strobes = true then { s with phase := .pulse, out := false }
        else { s with phase := .spent 0, out := true }
      else { s with phase := .counting (left - 1) }
    else s
  | .pulse => { s with phase := .spent 0, out := true }
  | .spent since => if t.enabled s = true then { s with phase := .spent (since + 1) } else s

def OneShot.setGate (t : OneShot) (gate : Bool) (s : Shot) : Shot :=
  { s with
    gate := gate
    phase :=
      if t.triggered = true ∧ s.gate = false ∧ gate = true ∧ s.phase ≠ .idle then .loading
      else s.phase }

def OneShot.write (t : OneShot) (n : Nat) (s : Shot) : Shot :=
  { s with
    n := n
    out := if t.drops = true then false else s.out
    phase :=
      if t.triggered = true then if s.phase = .idle then .ready else s.phase else .loading }

inductive Event (Count : Type) where
  | tick
  | gate (level : Bool)
  | write (count : Count)

def OneShot.step (t : OneShot) (s : Shot) : Event Nat → Shot
  | .tick => t.tick s
  | .gate level => t.setGate level s
  | .write n => t.write n s

def OneShot.run (t : OneShot) (s : Shot) (events : List (Event Nat)) : Shot :=
  events.foldl t.step s

def Event.map {α β : Type} (f : α → β) : Event α → Event β
  | .tick => .tick
  | .gate level => .gate level
  | .write count => .write (f count)

/-! ## A run of ticks -/

theorem run_ticks (t : OneShot) (s : Shot) (k : Nat) :
    t.run s (List.replicate k .tick) = t.tick^[k] s := by
  induction k generalizing s with
  | zero => rfl
  | succ k ih =>
    rw [Function.iterate_succ_apply, ← ih]
    rfl

theorem tick_counting {t : OneShot} {s : Shot} {left : Nat} (hs : t.strobes = false)
    (hp : s.phase = .counting left) (hen : t.enabled s = true) :
    t.tick s =
      if left = 1 then { s with phase := .spent 0, out := true }
      else { s with phase := .counting (left - 1) } := by
  unfold OneShot.tick
  rw [hp]
  simp only [if_pos hen, hs, Bool.false_eq_true, if_false]

theorem tick_over {t : OneShot} {s : Shot} {since : Nat} (hp : s.phase = .spent since)
    (hen : t.enabled s = true) : t.tick s = { s with phase := .spent (since + 1) } := by
  unfold OneShot.tick
  rw [hp]
  exact if_pos hen

/-- A level timer that runs freely, so many ticks after its count. -/
theorem iterate_tick {t : OneShot} {s : Shot} (hs : t.strobes = false) (hp : s.phase = .loading)
    (hen : t.enabled s = true) (hn : 1 ≤ s.n) (k : Nat) :
    t.tick^[k + 1] s =
      if k < s.n then { s with phase := .counting (s.n - k), out := false }
      else { s with phase := .spent (k - s.n), out := true } := by
  induction k with
  | zero =>
    rw [if_pos (by omega), Function.iterate_one]
    unfold OneShot.tick
    rw [hp, hs]
    rfl
  | succ k ih =>
    rw [Function.iterate_succ_apply', ih]
    by_cases hlt : k < s.n
    · have htick := tick_counting (s := { s with phase := .counting (s.n - k), out := false })
        hs rfl hen
      rw [if_pos hlt, htick]
      by_cases hlast : s.n - k = 1
      · rw [if_pos hlast, if_neg (by omega), show k + 1 - s.n = 0 by omega]
      · rw [if_neg hlast, if_pos (by omega), show s.n - (k + 1) = s.n - k - 1 by omega]
    · have htick := tick_over (s := { s with phase := .spent (k - s.n), out := true }) rfl hen
      rw [if_neg hlt, if_neg (by omega), htick, show k - s.n + 1 = k + 1 - s.n by omega]

/-- It fires in the clock after its count. -/
theorem out_ticks {t : OneShot} {s : Shot} (hs : t.strobes = false) (hp : s.phase = .loading)
    (hen : t.enabled s = true) (hout : s.out = false) (hn : 1 ≤ s.n) (k : Nat) :
    (t.tick^[k] s).out = decide (s.n < k) := by
  cases k with
  | zero => exact hout.trans (decide_eq_false (by omega)).symm
  | succ k =>
    rw [iterate_tick hs hp hen hn]
    split_ifs with hlt
    · exact (decide_eq_false (by omega)).symm
    · exact (decide_eq_true (by omega)).symm

end one_shot
