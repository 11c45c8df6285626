-- Lists of layers where a later layer hides the ones before it. A fold that
-- overlays one layer after another leaves the last one that answers.
import Mathlib.Data.List.Basic
import Mathlib.Data.Option.Basic

namespace last_wins

variable {α β : Type}

/-- The answer of the last layer that has one. -/
def lastMatch (q : α → Option β) : List α → Option β
  | [] => none
  | a :: l => (lastMatch q l).or (q a)

theorem lastMatch_congr {q q' : α → Option β} {l : List α} (h : ∀ a ∈ l, q a = q' a) :
    lastMatch q l = lastMatch q' l := by
  induction l with
  | nil => rfl
  | cons a l ih =>
    rw [lastMatch, lastMatch, h a (by simp), ih fun b hb => h b (by simp [hb])]

theorem lastMatch_none {q : α → Option β} {l : List α} (h : ∀ a ∈ l, q a = none) :
    lastMatch q l = none := by
  induction l with
  | nil => rfl
  | cons a l ih =>
    rw [lastMatch, h a (by simp), ih fun b hb => h b (by simp [hb])]
    rfl

theorem lastMatch_snoc (q : α → Option β) (l : List α) (a : α) :
    lastMatch q (l ++ [a]) = (q a).or (lastMatch q l) := by
  induction l with
  | nil => simp [lastMatch]
  | cons b l ih => rw [List.cons_append, lastMatch, ih, lastMatch, Option.or_assoc]

/-- A change of one numbered layer that keeps its answer. -/
theorem lastMatch_zipIdx_modify (q : α × Nat → Option β) (f : α → α) (l : List α) (i k : Nat)
    (h : ∀ a, l[i]? = some a → q (f a, k + i) = q (a, k + i)) :
    lastMatch q ((l.modify i f).zipIdx k) = lastMatch q (l.zipIdx k) := by
  induction l generalizing i k with
  | nil => simp
  | cons a l ih =>
    cases i with
    | zero =>
      have ha := h a (by simp)
      simp only [Nat.add_zero] at ha
      simp only [List.modify_zero_cons, List.zipIdx_cons, lastMatch, ha]
    | succ i =>
      have hl := ih i (k + 1) fun b hb => by
        have := h b (by simpa using hb)
        rwa [show k + 1 + i = k + (i + 1) by omega]
      simp only [List.modify_succ_cons, List.zipIdx_cons, lastMatch, hl]

end last_wins
