-- Binary search trees that keep equal keys, and the places in them. A path is a
-- tree with a hole, from the hole up to the root, so that a change at any node is
-- a change of what fills the hole.
import Mathlib.Data.Tree.Basic
import Mathlib.Order.Basic
import Mathlib.Data.List.Nodup
import Mathlib.Order.Lattice

namespace search_tree

variable {α κ : Type}

/-! ## Paths -/

def inorder : BinaryTree α → List α
  | .nil => []
  | .node a l r => inorder l ++ a :: inorder r

/-- One turn on the way down: the node, and the subtree that is left aside. -/
inductive Turn (α : Type) where
  | left (a : α) (r : BinaryTree α)
  | right (a : α) (l : BinaryTree α)

/-- The tree with the hole filled. -/
def plug : List (Turn α) → BinaryTree α → BinaryTree α
  | [], t => t
  | .left a r :: c, t => plug c (.node a t r)
  | .right a l :: c, t => plug c (.node a l t)

/-- The nodes of a path that come before the hole. -/
def before : List (Turn α) → List α
  | [] => []
  | .left _ _ :: c => before c
  | .right a l :: c => before c ++ (inorder l ++ [a])

/-- The nodes of a path that come after the hole. -/
def after : List (Turn α) → List α
  | [] => []
  | .left a r :: c => a :: inorder r ++ after c
  | .right _ _ :: c => after c

/-- The nodes on a path. -/
def around (c : List (Turn α)) : List α := before c ++ after c

theorem inorder_plug (c : List (Turn α)) (t : BinaryTree α) :
    inorder (plug c t) = before c ++ (inorder t ++ after c) := by
  induction c generalizing t with
  | nil => simp [plug, before, after]
  | cons f c ih =>
    cases f with
    | left a r =>
      rw [plug, ih, before, after, inorder]
      simp
    | right a l =>
      rw [plug, ih, before, after, inorder]
      simp

theorem around_nodup_of {c : List (Turn α)} {t : BinaryTree α} (h : (inorder (plug c t)).Nodup) :
    (around c).Nodup := by
  rw [inorder_plug] at h
  exact h.sublist (List.Sublist.append_left (List.sublist_append_right _ _) _)

theorem plug_append (c d : List (Turn α)) (t : BinaryTree α) :
    plug (c ++ d) t = plug d (plug c t) := by
  induction c generalizing t with
  | nil => rfl
  | cons f c ih =>
    cases f with
    | left a r => exact ih _
    | right a l => exact ih _

/-- Each node of a tree has a path to it. -/
theorem exists_path {a : α} {t : BinaryTree α} (h : a ∈ inorder t) :
    ∃ c l r, t = plug c (.node a l r) := by
  induction t with
  | nil => exact absurd h (by simp [inorder])
  | node b l r ihl ihr =>
    rw [inorder, List.mem_append, List.mem_cons] at h
    rcases h with h | rfl | h
    · obtain ⟨c, l', r', rfl⟩ := ihl h
      exact ⟨c ++ [.left b r], l', r', by rw [plug_append]; rfl⟩
    · exact ⟨[], l, r, rfl⟩
    · obtain ⟨c, l', r', rfl⟩ := ihr h
      exact ⟨c ++ [.right b l], l', r', by rw [plug_append]; rfl⟩

def Turn.IsLeft : Turn α → Prop
  | .left _ _ => True
  | .right _ _ => False

def Turn.IsRight : Turn α → Prop
  | .left _ _ => False
  | .right _ _ => True

theorem before_of_left {d : List (Turn α)} (hd : ∀ f ∈ d, f.IsLeft) : before d = [] := by
  induction d with
  | nil => rfl
  | cons f d ih =>
    cases f with
    | left a r => exact ih fun g hg => hd g (by simp [hg])
    | right a l => exact (hd (.right a l) (by simp)).elim

theorem after_of_right {e : List (Turn α)} (he : ∀ f ∈ e, f.IsRight) : after e = [] := by
  induction e with
  | nil => rfl
  | cons f e ih =>
    cases f with
    | left a r => exact (he (.left a r) (by simp)).elim
    | right a l => exact ih fun g hg => he g (by simp [hg])

/-- The way down past the last node. -/
theorem exists_last (t : BinaryTree α) : ∃ e, t = plug e .nil ∧ ∀ f ∈ e, f.IsRight := by
  induction t with
  | nil => exact ⟨[], rfl, by simp⟩
  | node a l r _ ihr =>
    obtain ⟨e, he, hr⟩ := ihr
    refine ⟨e ++ [.right a l], ?_, ?_⟩
    · rw [plug_append, ← he]
      rfl
    · intro f hf
      rcases List.mem_append.mp hf with hf | hf
      · exact hr f hf
      · rw [List.mem_singleton.mp hf]
        trivial

/-! ## Order -/

section

variable [LinearOrder κ] (key : α → κ)

/-- Smaller keys stand to the left of a node, and the others to its right. -/
def Ordered : BinaryTree α → Prop
  | .nil => True
  | .node a l r => (∀ x ∈ inorder l, key x < key a) ∧ (∀ x ∈ inorder r, key a ≤ key x) ∧
      Ordered l ∧ Ordered r

theorem ordered_congr {key key' : α → κ} {t : BinaryTree α}
    (h : ∀ x ∈ inorder t, key' x = key x) (ho : Ordered key t) : Ordered key' t := by
  induction t with
  | nil => trivial
  | node a l r ihl ihr =>
    obtain ⟨h1, h2, h3, h4⟩ := ho
    simp only [inorder, List.mem_append, List.mem_cons] at h
    have ha := h a (Or.inr (Or.inl rfl))
    refine ⟨?_, ?_, ihl (fun x hx => h x (Or.inl hx)) h3,
      ihr (fun x hx => h x (Or.inr (Or.inr hx))) h4⟩
    · intro x hx
      rw [h x (Or.inl hx), ha]
      exact h1 x hx
    · intro x hx
      rw [h x (Or.inr (Or.inr hx)), ha]
      exact h2 x hx

/-- A search for the key of `x` takes every turn of the path. -/
def Fits : List (Turn α) → α → Prop
  | [], _ => True
  | .left a _ :: c, x => key x < key a ∧ Fits c x
  | .right a _ :: c, x => key a ≤ key x ∧ Fits c x

/-- What is on the path stands in order, whatever fills the hole. -/
def OrderedAround : List (Turn α) → Prop
  | [] => True
  | .left a r :: c => Fits key c a ∧ (∀ x ∈ inorder r, key a ≤ key x ∧ Fits key c x) ∧
      Ordered key r ∧ OrderedAround c
  | .right a l :: c => Fits key c a ∧ (∀ x ∈ inorder l, key x < key a ∧ Fits key c x) ∧
      Ordered key l ∧ OrderedAround c

theorem ordered_plug (c : List (Turn α)) (t : BinaryTree α) :
    Ordered key (plug c t) ↔
      Ordered key t ∧ (∀ x ∈ inorder t, Fits key c x) ∧ OrderedAround key c := by
  induction c generalizing t with
  | nil => simp [plug, Fits, OrderedAround]
  | cons f c ih =>
    cases f with
    | left a r =>
      rw [plug, ih]
      simp only [Ordered, OrderedAround, Fits, inorder, List.mem_append, List.mem_cons]
      constructor
      · rintro ⟨⟨h1, h2, h3, h4⟩, h5, h6⟩
        refine ⟨h3, fun x hx => ⟨h1 x hx, h5 x (Or.inl hx)⟩, h5 a (Or.inr (Or.inl rfl)), ?_, h4, h6⟩
        exact fun x hx => ⟨h2 x hx, h5 x (Or.inr (Or.inr hx))⟩
      · rintro ⟨h1, h2, h3, h4, h5, h6⟩
        refine ⟨⟨fun x hx => (h2 x hx).1, fun x hx => (h4 x hx).1, h1, h5⟩, ?_, h6⟩
        rintro x (hx | rfl | hx)
        · exact (h2 x hx).2
        · exact h3
        · exact (h4 x hx).2
    | right a l =>
      rw [plug, ih]
      simp only [Ordered, OrderedAround, Fits, inorder, List.mem_append, List.mem_cons]
      constructor
      · rintro ⟨⟨h1, h2, h3, h4⟩, h5, h6⟩
        refine ⟨h4, ?_, h5 a (Or.inr (Or.inl rfl)), fun x hx => ⟨h1 x hx, h5 x (Or.inl hx)⟩, h3, h6⟩
        exact fun x hx => ⟨h2 x hx, h5 x (Or.inr (Or.inr hx))⟩
      · rintro ⟨h1, h2, h3, h4, h5, h6⟩
        refine ⟨⟨fun x hx => (h4 x hx).1, fun x hx => (h2 x hx).1, h5, h1⟩, ?_, h6⟩
        rintro x (hx | rfl | hx)
        · exact (h4 x hx).2
        · exact h3
        · exact (h2 x hx).2

variable {key}

/-- A new node goes where its search ends. -/
theorem ordered_insert {c : List (Turn α)} {a : α} (h : Ordered key (plug c .nil))
    (ha : Fits key c a) : Ordered key (plug c (.node a .nil .nil)) := by
  rw [ordered_plug] at h ⊢
  refine ⟨by simp [Ordered, inorder], ?_, h.2.2⟩
  intro x hx
  rw [inorder, List.mem_append, List.mem_cons] at hx
  rcases hx with hx | rfl | hx
  · exact absurd hx (by simp [inorder])
  · exact ha
  · exact absurd hx (by simp [inorder])

/-- What fits a path of left turns is smaller than every node on it. -/
theorem lt_of_fits_left {d : List (Turn α)} (hd : ∀ f ∈ d, f.IsLeft) (ho : OrderedAround key d)
    {x y : α} (hx : Fits key d x) (hy : y ∈ after d) : key x < key y := by
  induction d with
  | nil => exact absurd hy (by simp [after])
  | cons f d ih =>
    cases f with
    | left a r =>
      simp only [after, List.cons_append, List.mem_cons, List.mem_append] at hy
      rcases hy with rfl | hy | hy
      · exact hx.1
      · exact lt_of_lt_of_le hx.1 (ho.2.1 y hy).1
      · exact ih (fun g hg => hd g (by simp [hg])) ho.2.2.2 hx.2 hy
    | right a l => exact (hd (.right a l) (by simp)).elim

theorem fits_right {e : List (Turn α)} (he : ∀ f ∈ e, f.IsRight) {y : α}
    (h : ∀ x ∈ before e, key x ≤ key y) : Fits key e y := by
  induction e with
  | nil => trivial
  | cons f e ih =>
    cases f with
    | left a r => exact (he (.left a r) (by simp)).elim
    | right a l =>
      refine ⟨h a (by simp [before]), ih (fun g hg => he g (by simp [hg])) ?_⟩
      intro x hx
      exact h x (by simp [before, hx])

/-- The first node `m` of the right subtree takes the place of `b`, and what else
there was on the right goes past the last node of the subtree that `m` had. -/
theorem ordered_splice {c d e : List (Turn α)} {b m : α} {l : BinaryTree α}
    (hd : ∀ f ∈ d, f.IsLeft) (he : ∀ f ∈ e, f.IsRight)
    (h : Ordered key (plug c (.node b l (plug d (.node m .nil (plug e .nil)))))) :
    Ordered key (plug c (.node m l (plug e (plug d .nil)))) := by
  rw [ordered_plug] at h ⊢
  obtain ⟨⟨hl, hr, hol, hor⟩, hfit, hoc⟩ := h
  rw [ordered_plug] at hor
  obtain ⟨⟨-, hmR, -, hoR⟩, hfd, hod⟩ := hor
  have hd1 := before_of_left hd
  have he1 := after_of_right he
  rw [ordered_plug] at hoR
  simp only [inorder_plug, inorder, hd1, he1, List.nil_append, List.append_nil, List.mem_append,
    List.mem_cons] at hr hmR hfd hfit ⊢
  have hbm : key b ≤ key m := hr m (Or.inl (Or.inl rfl))
  have hmd : ∀ y ∈ after d, key m < key y := fun y hy =>
    lt_of_fits_left hd hod (hfd m (Or.inl rfl)) hy
  have hRd : ∀ x ∈ before e, ∀ y ∈ after d, key x < key y := fun x hx y hy =>
    lt_of_fits_left hd hod (hfd x (Or.inr hx)) hy
  refine ⟨⟨?_, ?_, hol, ?_⟩, ?_, hoc⟩
  · intro x hx
    exact lt_of_lt_of_le (hl x hx) hbm
  · simp only [inorder_plug, inorder, hd1, he1, List.nil_append, List.append_nil, List.mem_append]
    rintro x (hx | hx)
    · exact hmR x hx
    · exact (hmd x hx).le
  · rw [ordered_plug, ordered_plug]
    refine ⟨⟨trivial, by simp [inorder], hod⟩, ?_, hoR.2.2⟩
    intro y hy
    simp only [inorder_plug, inorder, hd1, List.nil_append] at hy
    exact fits_right he fun x hx => (hRd x hx y hy).le
  · rintro x (hx | rfl | hx | hx)
    · exact hfit x (Or.inl hx)
    · exact hfit x (Or.inr (Or.inr (Or.inl (Or.inl rfl))))
    · exact hfit x (Or.inr (Or.inr (Or.inl (Or.inr hx))))
    · exact hfit x (Or.inr (Or.inr (Or.inr hx)))

/-- The right or the left subtree takes the place of a node. -/
theorem ordered_lift {c : List (Turn α)} {b : α} {l r t : BinaryTree α}
    (h : Ordered key (plug c (.node b l r))) (ht : t = l ∨ t = r) : Ordered key (plug c t) := by
  rw [ordered_plug] at h ⊢
  obtain ⟨⟨-, -, hol, hor⟩, hfit, hoc⟩ := h
  simp only [inorder, List.mem_append, List.mem_cons] at hfit
  rcases ht with rfl | rfl
  · exact ⟨hol, fun x hx => hfit x (Or.inl hx), hoc⟩
  · exact ⟨hor, fun x hx => hfit x (Or.inr (Or.inr hx)), hoc⟩

end

end search_tree
