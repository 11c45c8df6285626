-- A sweep: a step is made for each element of a list, one after the other, and what a step does
-- for its own element is not undone by the steps that follow.
import Mathlib.Data.List.Basic

namespace sweep

variable {σ ι : Type} (step : σ → ι → σ)

/-- An invariant holds after the sweep. -/
theorem keeps (inv : σ → Prop) (h : ∀ s i, inv s → inv (step s i)) {s : σ} (hs : inv s)
    (l : List ι) : inv (l.foldl step s) := by
  induction l generalizing s with
  | nil => exact hs
  | cons i l ih => exact ih (h s i hs)

/-- After the sweep all is done that it went over. -/
theorem all_done (done : ι → σ → Prop) (h : ∀ s i, done i (step s i))
    (hkeep : ∀ s i j, done j s → done j (step s i)) (s : σ) (l : List ι) :
    ∀ i ∈ l, done i (l.foldl step s) := by
  induction l generalizing s with
  | nil => exact fun _ hi => absurd hi List.not_mem_nil
  | cons i l ih =>
    intro j hj
    rcases List.mem_cons.mp hj with rfl | hj
    · exact keeps step (done j) (fun s i => hkeep s i j) (h s j) l
    · exact ih (step s i) j hj

end sweep
