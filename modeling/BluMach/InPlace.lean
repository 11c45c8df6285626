-- Loops that go over an array and write each element back where it was: what such a loop leaves
-- is the walk over the elements that it goes over.
import Mathlib.Data.List.Forall2
import Mathlib.Logic.Function.Basic

namespace in_place

variable {ε σ α β ι : Type}

/-! ## Lists that go together -/

theorem forall₂_mem {r : α → β → Prop} {xs : List α} {ys : List β} (h : List.Forall₂ r xs ys)
    {y : β} (hy : y ∈ ys) : ∃ x ∈ xs, r x y := by
  induction h with
  | nil => exact absurd hy List.not_mem_nil
  | @cons x _ xs _ hx _ ih =>
    rcases List.mem_cons.mp hy with rfl | hy
    · exact ⟨x, List.mem_cons_self, hx⟩
    · obtain ⟨z, hz, hzy⟩ := ih hy
      exact ⟨z, List.mem_cons_of_mem x hz, hzy⟩

theorem forall₂_trans {γ : Type} {r : α → β → Prop} {q : β → γ → Prop} {p : α → γ → Prop}
    {xs : List α} {ys : List β} {zs : List γ} (h : List.Forall₂ r xs ys)
    (h' : List.Forall₂ q ys zs) (hp : ∀ x y z, r x y → q y z → p x z) : List.Forall₂ p xs zs := by
  induction h generalizing zs with
  | nil =>
    cases h'
    exact .nil
  | cons hx _ ih =>
    cases h' with
    | cons hy hrest => exact .cons (hp _ _ _ hx hy) (ih hrest)

theorem forall₂_pairwise {r : α → β → Prop} {p : α → α → Prop} {q : β → β → Prop} {xs : List α}
    {ys : List β} (h : List.Forall₂ r xs ys) (hp : xs.Pairwise p)
    (hpq : ∀ w x y z, r w y → r x z → p w x → q y z) : ys.Pairwise q := by
  induction h with
  | nil => exact .nil
  | cons hx hxs ih =>
    obtain ⟨hfirst, hrest⟩ := List.pairwise_cons.mp hp
    refine .cons (fun z hz => ?_) (ih hrest)
    obtain ⟨w, hw, hwz⟩ := forall₂_mem hxs hz
    exact hpq _ _ _ _ hx hwz (hfirst w hw)

/-! ## Walks -/

/-- The elements of a list are taken one after the other, with a state that is handed on. -/
inductive Walk (step : σ → α → Except ε (σ × α)) : σ → List α → σ → List α → Prop
  | nil {s : σ} : Walk step s [] s []
  | cons {s s₁ s' : σ} {x y : α} {xs ys : List α} (hx : step s x = .ok (s₁, y))
      (hxs : Walk step s₁ xs s' ys) : Walk step s (x :: xs) s' (y :: ys)

variable {step : σ → α → Except ε (σ × α)} {s s' : σ} {xs ys : List α}

theorem Walk.append {s₁ : σ} {zs ws : List α} (h : Walk step s xs s₁ ys)
    (h' : Walk step s₁ zs s' ws) : Walk step s (xs ++ zs) s' (ys ++ ws) := by
  induction h with
  | nil => exact h'
  | cons hx _ ih => exact .cons hx (ih h')

theorem Walk.split {zs ws : List α} (h : Walk step s (xs ++ zs) s' ws) :
    ∃ s₁ us vs, ws = us ++ vs ∧ Walk step s xs s₁ us ∧ Walk step s₁ zs s' vs := by
  induction xs generalizing s ws with
  | nil => exact ⟨s, [], ws, rfl, .nil, h⟩
  | cons x xs ih =>
    rw [List.cons_append] at h
    cases h with
    | cons hx hxs =>
      obtain ⟨s₁, us, vs, rfl, hleft, hright⟩ := ih hxs
      exact ⟨s₁, _ :: us, vs, rfl, .cons hx hleft, hright⟩

theorem walk_singleton {x : α} {zs : List α} (h : Walk step s [x] s' zs) :
    ∃ y, zs = [y] ∧ step s x = .ok (s', y) := by
  cases h with
  | cons hx hrest =>
    cases hrest
    exact ⟨_, rfl, hx⟩

/-- A walk from the last element to the first comes to the first one at the end. -/
theorem walk_reverse_cons {x : α} {zs : List α} (h : Walk step s (x :: xs).reverse s' zs) :
    ∃ s₁ y us, zs = (y :: us).reverse ∧ Walk step s xs.reverse s₁ us.reverse ∧
      step s₁ x = .ok (s', y) := by
  rw [List.reverse_cons] at h
  obtain ⟨s₁, us, vs, rfl, hleft, hright⟩ := h.split
  obtain ⟨y, rfl, hx⟩ := walk_singleton hright
  refine ⟨s₁, y, us.reverse, ?_, ?_, hx⟩
  · rw [List.reverse_cons, List.reverse_reverse]
  · rwa [List.reverse_reverse]

/-- What holds of every element and what becomes of it. -/
theorem Walk.forall₂ {r : α → α → Prop} (h : Walk step s xs s' ys)
    (hr : ∀ s x s₁ y, step s x = .ok (s₁, y) → r x y) : List.Forall₂ r xs ys := by
  induction h with
  | nil => exact .nil
  | cons hx _ ih => exact .cons (hr _ _ _ _ hx) ih

/-- Steps that do the same to what the elements hold. -/
theorem Walk.map {step' : σ → β → Except ε (σ × β)} (f : α → β)
    (hf : ∀ s x s₁ y, step s x = .ok (s₁, y) → step' s (f x) = .ok (s₁, f y))
    (h : Walk step s xs s' ys) : Walk step' s (xs.map f) s' (ys.map f) := by
  induction h with
  | nil => exact .nil
  | cons hx _ ih => exact .cons (hf _ _ _ _ hx) ih

/-- Steps that succeed on every element. -/
theorem exists_walk (h : ∀ s, ∀ x ∈ xs, ∃ s₁ y, step s x = .ok (s₁, y)) (s : σ) :
    ∃ s' ys, Walk step s xs s' ys := by
  induction xs generalizing s with
  | nil => exact ⟨s, [], .nil⟩
  | cons x xs ih =>
    obtain ⟨s₁, y, hx⟩ := h s x List.mem_cons_self
    obtain ⟨s', ys, hxs⟩ := ih (fun s z hz => h s z (List.mem_cons_of_mem x hz)) s₁
    exact ⟨s', y :: ys, .cons hx hxs⟩

/-- A step is a walk over the parts of its element. -/
def PartStep {τ : Type} (stepPart : τ → β → Except ε (τ × β)) (state : σ → τ)
    (parts : α → List β) (r : α → α → Prop) (s : σ) (x : α) (s' : σ) (y : α) : Prop :=
  Walk stepPart (state s) (parts x) (state s') (parts y) ∧ r x y

/-- Steps that are walks themselves, over the parts of each element. -/
theorem exists_walk_parts {τ : Type} {stepPart : τ → β → Except ε (τ × β)} {state : σ → τ}
    {parts : α → List β} {r : α → α → Prop}
    (h : ∀ s, ∀ x ∈ xs, ∃ s₁ y, step s x = .ok (s₁, y) ∧
      PartStep stepPart state parts r s x s₁ y) (s : σ) :
    ∃ s' ys, Walk step s xs s' ys ∧
      Walk stepPart (state s) (xs.flatMap parts) (state s') (ys.flatMap parts) ∧
      List.Forall₂ r xs ys := by
  induction xs generalizing s with
  | nil => exact ⟨s, [], .nil, .nil, .nil⟩
  | cons x xs ih =>
    obtain ⟨s₁, y, hx, hparts, hr⟩ := h s x List.mem_cons_self
    obtain ⟨s', ys, hxs, hrest, hrs⟩ := ih (fun s z hz => h s z (List.mem_cons_of_mem x hz)) s₁
    exact ⟨s', y :: ys, .cons hx hxs, hparts.append hrest, .cons hr hrs⟩

/-! ## Arrays -/

section

variable [DecidableEq ι]

/-- One turn of a loop over an array: the element is read, and written back. -/
def visitAt (step : σ → α → Except ε (σ × α)) (s : σ × (ι → α)) (i : ι) :
    Except ε (σ × (ι → α)) :=
  (step s.1 (s.2 i)).map fun r => (r.1, Function.update s.2 i r.2)

/-- A loop over an array is the walk over the elements, and leaves the others as they are. -/
theorem foldlM_visitAt {is : List ι} (hnodup : is.Nodup) {array : ι → α}
    (h : Walk step s (is.map array) s' ys) :
    ∃ array', is.foldlM (visitAt step) (s, array) = .ok (s', array') ∧ is.map array' = ys ∧
      ∀ i ∉ is, array' i = array i := by
  induction is generalizing s array ys with
  | nil =>
    cases h
    exact ⟨array, rfl, rfl, fun _ _ => rfl⟩
  | cons i is ih =>
    obtain ⟨hi, hrest⟩ := List.nodup_cons.mp hnodup
    rw [List.map_cons] at h
    cases h with
    | @cons _ s₁ _ _ y _ ys hx hxs =>
      have hsame : is.map array = is.map (Function.update array i y) :=
        List.map_congr_left fun k hk =>
          (Function.update_of_ne (ne_of_mem_of_not_mem hk hi) y array).symm
      rw [hsame] at hxs
      obtain ⟨array', hloop, hmap, hothers⟩ := ih hrest hxs
      refine ⟨array', ?_, ?_, fun k hk => ?_⟩
      · rw [List.foldlM_cons, visitAt, hx]
        exact hloop
      · rw [List.map_cons, hmap, hothers i hi, Function.update_self]
      · rw [List.mem_cons, not_or] at hk
        rw [hothers k hk.2, Function.update_of_ne hk.1]

end

/-! ## Lists -/

/-- One turn of a loop over a list that has an element at `i`. -/
def visit (err : ε) (step : σ → α → Except ε (σ × α)) (s : σ × List α) (i : Nat) :
    Except ε (σ × List α) :=
  match s.2[i]? with
  | none => .error err
  | some x => (step s.1 x).map fun r => (r.1, s.2.set i r.2)

theorem visit_ok (err : ε) {list : List α} {i : Nat} {x y : α} (hi : list[i]? = some x)
    (hx : step s x = .ok (s', y)) : visit err step (s, list) i = .ok (s', list.set i y) := by
  unfold visit
  rw [hi]
  simp only [hx]
  rfl

theorem foldlM_visit (err : ε) {is : List Nat} (hnodup : is.Nodup) {list zs : List α}
    (hzs : is.map (fun i => list[i]?) = zs.map some) (h : Walk step s zs s' ys) :
    ∃ list', is.foldlM (visit err step) (s, list) = .ok (s', list') ∧
      is.map (fun i => list'[i]?) = ys.map some ∧ list'.length = list.length ∧
      ∀ i ∉ is, list'[i]? = list[i]? := by
  induction is generalizing s list zs ys with
  | nil =>
    obtain rfl := List.map_eq_nil_iff.mp hzs.symm
    cases h
    exact ⟨list, rfl, rfl, rfl, fun _ _ => rfl⟩
  | cons i is ih =>
    obtain ⟨hi, hrest⟩ := List.nodup_cons.mp hnodup
    cases h with
    | nil => exact absurd hzs (List.cons_ne_nil _ _)
    | @cons _ s₁ _ x y zs ys hx hxs =>
      obtain ⟨hix, hzs'⟩ := List.cons.inj hzs
      have hsame : is.map (fun k => list[k]?) = is.map fun k => (list.set i y)[k]? :=
        List.map_congr_left fun k hk =>
          (List.getElem?_set_ne (ne_of_mem_of_not_mem hk hi).symm).symm
      rw [hsame] at hzs'
      obtain ⟨list', hloop, hmap, hlength, hothers⟩ := ih hrest hzs' hxs
      have hlt : i < list.length := (List.getElem?_eq_some_iff.mp hix).1
      refine ⟨list', ?_, ?_, ?_, fun k hk => ?_⟩
      · rw [List.foldlM_cons, visit_ok err hix hx]
        exact hloop
      · rw [List.map_cons, List.map_cons, hmap, hothers i hi, List.getElem?_set_self hlt]
      · rw [hlength, List.length_set]
      · rw [List.mem_cons, not_or] at hk
        rw [hothers k hk.2, List.getElem?_set_ne (Ne.symm hk.1)]

end in_place
