-- Memory in pages that is seen through windows: each window has a page or none, and a page may be
-- in many windows. What a byte of a page holds is what was last written to it, through any window.
import Mathlib.Data.Option.Basic
import Mathlib.Logic.Function.Basic

namespace banked_memory

variable {ω π ο β : Type} [DecidableEq ω] [DecidableEq π] [DecidableEq ο]

structure Banked (ω π ο β : Type) where
  windows : ω → Option π
  bytes : π → ο → β

inductive Call (ω π ο β : Type) where
  | select (w : ω) (page : Option π)
  | write (w : ω) (o : ο) (b : β)

def selectIn (windows : ω → Option π) : Call ω π ο β → ω → Option π
  | .select w page => Function.update windows w page
  | .write _ _ _ => windows

/-- A write through a window without a page is lost. -/
def step : Call ω π ο β → Banked ω π ο β → Banked ω π ο β
  | .select w page, s => { s with windows := Function.update s.windows w page }
  | .write w o b, s =>
    match s.windows w with
    | none => s
    | some p => { s with bytes := Function.update s.bytes p (Function.update (s.bytes p) o b) }

def run : List (Call ω π ο β) → Banked ω π ο β → Banked ω π ο β
  | [], s => s
  | c :: cs, s => run cs (step c s)

/-! ## What a history says -/

/-- The page in each window after the calls. -/
def selected (windows : ω → Option π) : List (Call ω π ο β) → ω → Option π
  | [] => windows
  | c :: cs => selected (selectIn windows c) cs

/-- What a call writes to offset `o` of page `p`. -/
def writtenBy (p : π) (o : ο) (windows : ω → Option π) : Call ω π ο β → Option β
  | .select _ _ => none
  | .write w o' b => if windows w = some p ∧ o' = o then some b else none

/-- What was last written to offset `o` of page `p`, through whichever window. -/
def lastWritten (p : π) (o : ο) (windows : ω → Option π) : List (Call ω π ο β) → Option β
  | [] => none
  | c :: cs => (lastWritten p o (selectIn windows c) cs).or (writtenBy p o windows c)

theorem step_windows (c : Call ω π ο β) (s : Banked ω π ο β) :
    (step c s).windows = selectIn s.windows c := by
  cases c with
  | select w page => rfl
  | write w o b =>
    rw [step]
    cases s.windows w <;> rfl

theorem step_bytes (c : Call ω π ο β) (s : Banked ω π ο β) (p : π) (o : ο) :
    (step c s).bytes p o = (writtenBy p o s.windows c).getD (s.bytes p o) := by
  cases c with
  | select w page => rfl
  | write w o' b =>
    rw [step, writtenBy]
    cases s.windows w with
    | none => simp
    | some q =>
      dsimp only
      by_cases hp : q = p
      · subst hp
        rw [Function.update_self]
        by_cases ho : o' = o
        · subst ho
          simp
        · simp [ho, Function.update_of_ne (Ne.symm ho)]
      · rw [Function.update_of_ne (Ne.symm hp)]
        simp [hp]

theorem run_windows (cs : List (Call ω π ο β)) (s : Banked ω π ο β) :
    (run cs s).windows = selected s.windows cs := by
  induction cs generalizing s with
  | nil => rfl
  | cons c cs ih => rw [run, ih, step_windows, selected]

/-- A byte of a page holds what was last written to it, or what it held at first. -/
theorem run_bytes (cs : List (Call ω π ο β)) (s : Banked ω π ο β) (p : π) (o : ο) :
    (run cs s).bytes p o = (lastWritten p o s.windows cs).getD (s.bytes p o) := by
  induction cs generalizing s with
  | nil => rfl
  | cons c cs ih =>
    rw [run, ih, step_windows, step_bytes, lastWritten]
    cases lastWritten p o (selectIn s.windows c) cs with
    | none => rfl
    | some b => rfl

end banked_memory
