-- Two runs of one system: a history, and the same history without the events that are to observe
-- only. A relation that may look at the rest of the history carries over, event by event.
import Mathlib.Data.List.Basic

namespace observers

variable {σ ε : Type} (step : ε → σ → σ) (observes : ε → Bool)

def run (es : List ε) (s : σ) : σ := es.foldl (fun s e => step e s) s

/-- Each event of the history meets its condition, with the events that follow it and in the
state before it. -/
def Meets (cond : ε → List ε → σ → Prop) : List ε → σ → Prop
  | [], _ => True
  | e :: es, s => cond e es s ∧ Meets cond es (step e s)

/-- The history without its observers. -/
def without (es : List ε) : List ε := es.filter fun e => !observes e

variable {step observes} {cond : ε → List ε → σ → Prop} {R : List ε → σ → σ → Prop}

/-- The relation holds at the end, where the events of both runs keep it and each observer keeps
it in the run that has it. -/
theorem related_without
    (hboth : ∀ e es s s', observes e = false → R (e :: es) s s' → R es (step e s) (step e s'))
    (hone : ∀ e es s s', observes e = true → cond e es s' → R (e :: es) s s' → R es s (step e s'))
    {es : List ε} {s s' : σ} (hR : R es s s') (hmeets : Meets step cond es s') :
    R [] (run step (without observes es) s) (run step es s') := by
  induction es generalizing s s' with
  | nil => exact hR
  | cons e es ih =>
    obtain ⟨hcond, hrest⟩ := hmeets
    unfold without
    cases he : observes e with
    | true =>
      rw [List.filter_cons_of_neg (by rw [he]; decide)]
      exact ih (hone e es s s' he hcond hR) hrest
    | false =>
      rw [List.filter_cons_of_pos (by rw [he]; decide)]
      exact ih (hboth e es s s' he hR) hrest

/-- What every event keeps under its condition holds at the end. -/
theorem invariant {P : σ → Prop} (hstep : ∀ e es s, cond e es s → P s → P (step e s)) {es : List ε}
    {s : σ} (hP : P s) (hmeets : Meets step cond es s) : P (run step es s) := by
  induction es generalizing s with
  | nil => exact hP
  | cons e es ih =>
    obtain ⟨hcond, hrest⟩ := hmeets
    exact ih (hstep e es s hcond hP) hrest

end observers
