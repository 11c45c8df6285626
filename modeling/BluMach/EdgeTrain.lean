-- Trains of edges: at how many edges a signal rises in each clock, and when two trains keep
-- the same distances.
import Mathlib.Order.Interval.Finset.Nat

namespace edge_train

/-- The rising edges of a level, by its value after `k` clocks. -/
def rises (level : Nat → Bool) (k : Nat) : Nat :=
  if level k = false ∧ level (k + 1) = true then 1 else 0

/-- In how many of the clocks from one edge to another a level is high. -/
def highs (level : Nat → Bool) (i k : Nat) : Nat :=
  ((Finset.Ico i k).filter (fun j => level (j + 1) = true)).card

/-- There is one edge. -/
def Once (f : Nat → Nat) : Prop := ∃ k, ∀ j, f j = if j = k then 1 else 0

/-- The first edge is in clock `a`, and then there is one in every `n` clocks. -/
def Every (a n : Nat) (f : Nat → Nat) : Prop :=
  ∀ k, f k = if a ≤ k ∧ (k - a) % n = 0 then 1 else 0

/-- From clock `d` on the one train is the other from clock `e` on, and neither has an edge
before. -/
structure Aligned (d e : Nat) (f g : Nat → Nat) : Prop where
  before_left : ∀ k < d, f k = 0
  before_right : ∀ k < e, g k = 0
  same : ∀ k, f (d + k) = g (e + k)

/-- The edges are at the same distances from each other. -/
def SameDistances (f g : Nat → Nat) : Prop := ∃ d e, Aligned d e f g

/-- At the same distances, and the levels are high for as long between the edges. -/
def SameWaves (f g : Nat → Nat) (u v : Nat → Bool) : Prop :=
  ∃ d e, Aligned d e f g ∧
    ∀ i k, f (d + i) ≠ 0 → f (d + k) ≠ 0 → highs u (d + i) (d + k) = highs v (e + i) (e + k)

theorem SameWaves.sameDistances {f g : Nat → Nat} {u v : Nat → Bool} (h : SameWaves f g u v) :
    SameDistances f g := by
  obtain ⟨d, e, haligned, -⟩ := h
  exact ⟨d, e, haligned⟩

theorem Every.before {a n : Nat} {f : Nat → Nat} (h : Every a n f) {k : Nat} (hk : k < a) :
    f k = 0 := by
  rw [h k, if_neg (by omega)]

/-- Two trains with the same period keep the same distances. -/
theorem sameDistances_of_every {a b n : Nat} {f g : Nat → Nat} (hf : Every a n f)
    (hg : Every b n g) : SameDistances f g := by
  refine ⟨a, b, fun k hk => hf.before hk, fun k hk => hg.before hk, fun k => ?_⟩
  rw [hf, hg, Nat.add_sub_cancel_left, Nat.add_sub_cancel_left]
  simp only [Nat.le_add_right, true_and]

/-- An edge that is missed one period after another. -/
theorem not_sameDistances_of_missed {a b n : Nat} {f g : Nat → Nat} (hg : Every b n g)
    (hedge : f a ≠ 0) (hmissed : f (a + n) = 0) : ¬SameDistances f g := by
  rintro ⟨d, e, h⟩
  have hd : d ≤ a := by
    by_contra hlt
    exact hedge (h.before_left a (by omega))
  have hthere := h.same (a - d)
  have hnext := h.same (a - d + n)
  rw [show d + (a - d) = a by omega] at hthere
  rw [show d + (a - d + n) = a + n by omega, hmissed] at hnext
  rw [hthere, hg] at hedge
  have hcond : b ≤ e + (a - d) ∧ (e + (a - d) - b) % n = 0 := by
    by_contra hno
    exact hedge (if_neg hno)
  have hmod : (e + (a - d + n) - b) % n = 0 := by
    rw [show e + (a - d + n) - b = e + (a - d) - b + n by omega, Nat.add_mod_right]
    exact hcond.2
  rw [hg, if_pos ⟨by omega, hmod⟩] at hnext
  exact absurd hnext (by decide)

end edge_train
