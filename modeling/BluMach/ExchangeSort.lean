-- The exchange sort that goes over the whole list once for each place, and puts an element into the
-- place in hand wherever it meets a greater one. It sorts upwards for all that: behind the pass for
-- a place, the greatest element of the list stands there, and the places before it are in order.
import Mathlib.Data.List.Sort

namespace exchange_sort

open List

variable {α : Type} (le : α → α → Prop) [DecidableRel le]

/-- A pass over `ys` with `x` in hand: each greater element is taken for the one in hand. -/
def pass (x : α) : List α → List α × α
  | [] => ([], x)
  | y :: ys =>
    if le y x then (y :: (pass x ys).1, (pass x ys).2) else (x :: (pass y ys).1, (pass y ys).2)

theorem pass_length (x : α) (ys : List α) : (pass le x ys).1.length = ys.length := by
  induction ys generalizing x with
  | nil => rfl
  | cons y ys ih =>
    unfold pass
    by_cases h : le y x
    · rw [if_pos h]
      simp [ih]
    · rw [if_neg h]
      simp [ih]

/-- The passes for the places of `rest`, each over the places of `done` and then over the ones
behind its own. -/
def sort (done : List α) : List α → List α
  | [] => done
  | x :: rest =>
    let front := pass le x done
    let back := pass le front.2 rest
    sort (front.1 ++ [back.2]) back.1
termination_by rest => rest.length
decreasing_by simp [pass_length]

/-! ## Nothing is lost -/

theorem pass_perm (x : α) (ys : List α) :
    ((pass le x ys).2 :: (pass le x ys).1).Perm (x :: ys) := by
  induction ys generalizing x with
  | nil => exact List.Perm.refl _
  | cons y ys ih =>
    unfold pass
    by_cases h : le y x
    · rw [if_pos h]
      exact (List.Perm.swap _ _ _).trans (((ih x).cons y).trans (List.Perm.swap _ _ _))
    · rw [if_neg h]
      exact (List.Perm.swap _ _ _).trans ((ih y).cons x)

theorem pass_mem {x z : α} {ys : List α}
    (h : z = (pass le x ys).2 ∨ z ∈ (pass le x ys).1) : z = x ∨ z ∈ ys := by
  rw [← List.mem_cons] at h ⊢
  exact (pass_perm le x ys).mem_iff.mp h

theorem sort_perm (done rest : List α) : (sort le done rest).Perm (done ++ rest) := by
  induction done, rest using sort.induct le with
  | case1 done =>
    rw [sort, List.append_nil]
  | case2 done x rest front back ih =>
    rw [sort]
    refine ih.trans ?_
    have hfront : (front.2 :: front.1).Perm (x :: done) := pass_perm le x done
    have hback : (back.2 :: back.1).Perm (front.2 :: rest) := pass_perm le front.2 rest
    calc front.1 ++ [back.2] ++ back.1 ~ front.1 ++ (back.2 :: back.1) := by simp
      _ ~ front.1 ++ (front.2 :: rest) := hback.append_left _
      _ ~ front.2 :: front.1 ++ rest := perm_middle
      _ ~ x :: done ++ rest := hfront.append_right _
      _ ~ done ++ x :: rest := perm_middle.symm

/-! ## The order -/

/-- No element is greater than the one in hand, so none is taken for it. -/
theorem pass_of_greatest {x : α} {ys : List α} (h : ∀ y ∈ ys, le y x) :
    pass le x ys = (ys, x) := by
  induction ys with
  | nil => rfl
  | cons y ys ih =>
    rw [pass, if_pos (h y List.mem_cons_self), ih (fun z hz => h z (List.mem_cons_of_mem _ hz))]

section

variable [Std.Total le] [IsTrans α le]

theorem pass_greatest {x z : α} {ys : List α} (h : z = x ∨ z ∈ ys) : le z (pass le x ys).2 := by
  induction ys generalizing x z with
  | nil =>
    rcases h with rfl | h
    · exact (Std.Total.total z z).elim id id
    · cases h
  | cons y ys ih =>
    unfold pass
    by_cases hle : le y x
    · rw [if_pos hle]
      rcases h with rfl | h
      · exact ih (Or.inl rfl)
      · rcases List.mem_cons.mp h with rfl | h
        · exact IsTrans.trans _ _ _ hle (ih (Or.inl rfl))
        · exact ih (Or.inr h)
    · rw [if_neg hle]
      rcases h with rfl | h
      · have hxy : le z y := (Std.Total.total y z).resolve_left hle
        exact IsTrans.trans _ _ _ hxy (ih (Or.inl rfl))
      · exact ih (List.mem_cons.mp h)

/-- A pass over a list in order puts `x` into its place, and the last one is left in hand. -/
theorem pass_sorted {x : α} {ys : List α} (h : ys.Pairwise le) :
    ((pass le x ys).1 ++ [(pass le x ys).2]).Pairwise le := by
  induction ys generalizing x with
  | nil => exact List.pairwise_singleton _ _
  | cons y ys ih =>
    obtain ⟨hy, hys⟩ := List.pairwise_cons.mp h
    unfold pass
    by_cases hle : le y x
    · rw [if_pos hle]
      refine List.pairwise_cons.mpr ⟨?_, ih hys⟩
      intro z hz
      rcases pass_mem le (by simpa [or_comm] using hz) with rfl | hz
      · exact hle
      · exact hy z hz
    · rw [if_neg hle]
      have hxy : le x y := (Std.Total.total y x).resolve_left hle
      refine List.pairwise_cons.mpr ⟨?_, ih hys⟩
      intro z hz
      rcases pass_mem le (by simpa [or_comm] using hz) with rfl | hz
      · exact hxy
      · exact IsTrans.trans _ _ _ hxy (hy z hz)

/-- Before each pass but the first one, the places that are done end with a greatest element. -/
def Inv (done rest : List α) : Prop :=
  done.Pairwise le ∧ ∀ g, done.getLast? = some g → ∀ r ∈ rest, le r g

theorem inv_step {done rest : List α} {x : α} (h : Inv le done (x :: rest)) :
    Inv le ((pass le x done).1 ++ [(pass le (pass le x done).2 rest).2])
      (pass le (pass le x done).2 rest).1 := by
  obtain ⟨hsort, hlast⟩ := h
  rcases List.eq_nil_or_concat done with rfl | ⟨init, g, hdone⟩
  · refine ⟨List.pairwise_singleton _ _, ?_⟩
    intro g hg r hr
    obtain rfl : (pass le x rest).2 = g := Option.some.inj hg
    exact pass_greatest le (pass_mem le (Or.inr hr))
  · -- The greatest element is in the front, so the pass over the rest changes nothing.
    have hg : ∀ r ∈ rest, le r (pass le x done).2 := by
      intro r hr
      have hrg : le r g := hlast g (by simp [hdone]) r (List.mem_cons_of_mem _ hr)
      exact IsTrans.trans _ _ _ hrg (pass_greatest le (Or.inr (by simp [hdone])))
    rw [pass_of_greatest le hg]
    refine ⟨pass_sorted le hsort, ?_⟩
    intro g' hg' r hr
    obtain rfl : (pass le x done).2 = g' := by simpa using hg'
    exact hg r hr

theorem sort_sorted_from {done rest : List α} (h : Inv le done rest) :
    (sort le done rest).Pairwise le := by
  induction done, rest using sort.induct le with
  | case1 done =>
    rw [sort]
    exact h.1
  | case2 done x rest front back ih =>
    rw [sort]
    exact ih (inv_step le h)

theorem sort_sorted (xs : List α) : (sort le [] xs).Pairwise le :=
  sort_sorted_from le ⟨List.Pairwise.nil, fun _ hg => by cases hg⟩

end

end exchange_sort
