-- Extents that lie one after another: a range in parts without a gap and without an overlap.
import Mathlib.Data.List.Pairwise
import Mathlib.Data.Nat.Notation

namespace tiling

/-- A start and a length. -/
abbrev Extent := Nat × Nat

/-- The extent has the place in it. -/
def Extent.Contains (e : Extent) (x : Nat) : Prop := e.1 ≤ x ∧ x < e.1 + e.2

instance (e : Extent) (x : Nat) : Decidable (e.Contains x) := inferInstanceAs (Decidable (_ ∧ _))

/-- The extents, in their order, are the range from `a` to `b`. -/
inductive Tiles : Nat → List Extent → Nat → Prop
  | nil {a : Nat} : Tiles a [] a
  | cons {a n b : Nat} {es : List Extent} (h : Tiles (a + n) es b) : Tiles a ((a, n) :: es) b

variable {a b c : Nat} {es fs : List Extent}

theorem Tiles.head {e : Extent} (h : Tiles a (e :: es) b) : e.1 = a ∧ Tiles (a + e.2) es b := by
  cases h with
  | cons h => exact ⟨rfl, h⟩

theorem Tiles.le (h : Tiles a es b) : a ≤ b := by
  induction h with
  | nil => exact Nat.le_refl _
  | cons _ ih => omega

theorem Tiles.bounds (h : Tiles a es b) {e : Extent} (he : e ∈ es) : a ≤ e.1 ∧ e.1 + e.2 ≤ b := by
  induction h with
  | nil => exact absurd he List.not_mem_nil
  | cons hrest ih =>
    rcases List.mem_cons.mp he with rfl | he
    · exact ⟨Nat.le_refl _, hrest.le⟩
    · have := ih he
      omega

theorem Tiles.nil_eq (h : Tiles a [] b) : a = b := by
  cases h
  rfl

theorem Tiles.append (h : Tiles a es b) (h' : Tiles b fs c) : Tiles a (es ++ fs) c := by
  induction h with
  | nil => exact h'
  | cons _ ih => exact .cons (ih h')

theorem Tiles.split (h : Tiles a (es ++ fs) c) : ∃ b, Tiles a es b ∧ Tiles b fs c := by
  induction es generalizing a with
  | nil => exact ⟨a, .nil, h⟩
  | cons e es ih =>
    cases h with
    | cons h =>
      obtain ⟨b, hes, hfs⟩ := ih h
      exact ⟨b, .cons hes, hfs⟩

/-- A place that no extent has on both sides of it cuts the range in two. -/
theorem Tiles.cut (h : Tiles a es c) (hab : a ≤ b) (hbc : b ≤ c)
    (hsides : ∀ e ∈ es, e.1 + e.2 ≤ b ∨ b ≤ e.1) :
    Tiles a (es.filter fun e => e.1 < b) b ∧ Tiles b (es.filter fun e => ¬e.1 < b) c ∧
      es = (es.filter fun e => e.1 < b) ++ es.filter fun e => ¬e.1 < b := by
  induction h with
  | nil =>
    obtain rfl := Nat.le_antisymm hab hbc
    exact ⟨.nil, .nil, rfl⟩
  | @cons a n c es hrest ih =>
    have hhead := hsides _ List.mem_cons_self
    have htail := fun e he => hsides e (List.mem_cons_of_mem _ he)
    by_cases hlt : a < b
    · obtain ⟨hfirst, hsecond, heq⟩ := ih (by omega) hbc htail
      simp only [List.filter_cons, hlt, decide_true, if_true]
      exact ⟨.cons hfirst, hsecond, congrArg ((a, n) :: ·) heq⟩
    · obtain rfl := Nat.le_antisymm hab (Nat.le_of_not_lt hlt)
      have hall : ∀ e ∈ (a, n) :: es, ¬e.1 < a := by
        intro e he
        have hle := (Tiles.cons hrest).bounds he
        omega
      have hnone : ((a, n) :: es).filter (fun e => e.1 < a) = [] :=
        List.filter_eq_nil_iff.mpr fun e he => by simpa using hall e he
      have hsame : ((a, n) :: es).filter (fun e => ¬e.1 < a) = (a, n) :: es :=
        List.filter_eq_self.mpr fun e he => by simpa using hall e he
      rw [hnone, hsame]
      exact ⟨.nil, .cons hrest, rfl⟩

/-- The last extent goes to the end of the range. -/
theorem Tiles.last {e : Extent} (h : Tiles a (es ++ [e]) b) : e.1 + e.2 = b := by
  induction es generalizing a with
  | nil =>
    cases h with
    | cons h =>
      cases h
      rfl
  | cons f es ih =>
    cases h with
    | cons h => exact ih h

/-- None of the extents overlaps one after it. -/
theorem Tiles.pairwise (h : Tiles a es b) : es.Pairwise fun e f => e.1 + e.2 ≤ f.1 := by
  induction h with
  | nil => exact .nil
  | cons hrest ih => exact .cons (fun f hf => (hrest.bounds hf).1) ih

/-! ## Elements that stand together -/

/-- Equal elements of the list stand next to each other. -/
def Together {α : Type} : List α → Prop
  | [] => True
  | x :: xs => (x ∈ xs → xs.head? = some x) ∧ Together xs

instance decidableTogether {α : Type} [DecidableEq α] : (l : List α) → Decidable (Together l)
  | [] => isTrue trivial
  | x :: xs =>
    have : Decidable (Together xs) := decidableTogether xs
    inferInstanceAs (Decidable ((x ∈ xs → xs.head? = some x) ∧ Together xs))

end tiling
