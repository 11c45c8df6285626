-- Trees whose nodes keep their links in three functions, `parent`, `left` and
-- `right`, with a null node for no link. A change of links is proved piece by
-- piece: a subtree that goes under another parent, a hole that is filled anew, and
-- what no store touches.
import BluMach.SearchTree
import Mathlib.Logic.Function.Basic

namespace linked_tree

open search_tree

variable {α : Type}

structure Links (α : Type) where
  parent : α → α
  left : α → α
  right : α → α

/-- The links of the nodes in `l` are the same in `k'`. -/
def SameOn (k k' : Links α) (l : List α) : Prop :=
  ∀ x ∈ l, k'.parent x = k.parent x ∧ k'.left x = k.left x ∧ k'.right x = k.right x

theorem SameOn.mono {k k' : Links α} {l l' : List α} (h : SameOn k k' l) (hl : l' ⊆ l) :
    SameOn k k' l' :=
  fun x hx => h x (hl hx)

variable (null : α)

/-! ## Trees of links -/

def root : BinaryTree α → α
  | .nil => null
  | .node a _ _ => a

/-- The links spell the tree, whose root has the parent `p`. -/
def Spells (k : Links α) (p : α) : BinaryTree α → Prop
  | .nil => True
  | .node a l r => a ≠ null ∧ k.parent a = p ∧ k.left a = root null l ∧ k.right a = root null r ∧
      Spells k a l ∧ Spells k a r

/-- The node above the hole. -/
def top (p : α) : List (Turn α) → α
  | [] => p
  | .left a _ :: _ => a
  | .right a _ :: _ => a

/-- The root of a tree whose hole has the root `h`. -/
def entry (h : α) : List (Turn α) → α
  | [] => h
  | .left a _ :: c => entry a c
  | .right a _ :: c => entry a c

/-- The links spell what is around the hole, with `h` as the link into it. -/
def SpellsAround (k : Links α) (p : α) : List (Turn α) → α → Prop
  | [], _ => True
  | .left a r :: c, h => a ≠ null ∧ k.parent a = top p c ∧ k.left a = h ∧
      k.right a = root null r ∧ Spells null k a r ∧ SpellsAround k p c a
  | .right a l :: c, h => a ≠ null ∧ k.parent a = top p c ∧ k.left a = root null l ∧
      k.right a = h ∧ Spells null k a l ∧ SpellsAround k p c a

variable {null}

theorem root_nil : root null .nil = null := rfl

theorem root_plug (c : List (Turn α)) (t : BinaryTree α) :
    root null (plug c t) = entry (root null t) c := by
  induction c generalizing t with
  | nil => rfl
  | cons f c ih =>
    cases f with
    | left a r => exact ih _
    | right a l => exact ih _

theorem top_append (p : α) (c d : List (Turn α)) : top p (c ++ d) = top (top p d) c := by
  cases c with
  | nil => rfl
  | cons f c => cases f <;> rfl

theorem spells_plug (k : Links α) (p : α) (c : List (Turn α)) (t : BinaryTree α) :
    Spells null k p (plug c t) ↔
      Spells null k (top p c) t ∧ SpellsAround null k p c (root null t) := by
  induction c generalizing t with
  | nil => simp [plug, top, SpellsAround]
  | cons f c ih =>
    cases f with
    | left a r =>
      rw [plug, ih]
      simp only [Spells, SpellsAround, top, root]
      tauto
    | right a l =>
      rw [plug, ih]
      simp only [Spells, SpellsAround, top, root]
      tauto

theorem Spells.ne_null {k : Links α} {p : α} {t : BinaryTree α} (h : Spells null k p t) {x : α}
    (hx : x ∈ inorder t) : x ≠ null := by
  obtain ⟨c, l, r, rfl⟩ := exists_path hx
  rw [spells_plug] at h
  exact h.1.1

theorem root_mem {t : BinaryTree α} (h : t ≠ .nil) : root null t ∈ inorder t := by
  cases t with
  | nil => exact absurd rfl h
  | node a l r => simp [root, inorder]

theorem top_mem (p : α) (c : List (Turn α)) : top p c = p ∨ top p c ∈ around c := by
  cases c with
  | nil => exact Or.inl rfl
  | cons f c =>
    right
    cases f with
    | left a r => simp [top, around, after]
    | right a l => simp [top, around, before]

theorem entry_of_ne_nil {c : List (Turn α)} (hc : c ≠ []) (h h' : α) : entry h c = entry h' c := by
  cases c with
  | nil => exact absurd rfl hc
  | cons f c => cases f <;> rfl

theorem entry_null_mem {d : List (Turn α)} (hd : d ≠ []) : entry null d ∈ around d := by
  have hne : plug d BinaryTree.nil ≠ .nil := by
    intro hp
    have hin := congrArg inorder hp
    rw [inorder_plug] at hin
    cases d with
    | nil => exact hd rfl
    | cons f d => cases f <;> simp [inorder, before, after] at hin
  have hr : root null (plug d .nil) ∈ inorder (plug d .nil) := root_mem hne
  rw [root_plug, inorder_plug] at hr
  exact hr

/-! ## Changes of links -/

theorem spells_congr {k k' : Links α} {p : α} {t : BinaryTree α} (hs : SameOn k k' (inorder t))
    (h : Spells null k p t) : Spells null k' p t := by
  induction t generalizing p with
  | nil => trivial
  | node a l r ihl ihr =>
    obtain ⟨h1, h2, h3, h4, h5, h6⟩ := h
    obtain ⟨g1, g2, g3⟩ := hs a (by simp [inorder])
    refine ⟨h1, g1.trans h2, g2.trans h3, g3.trans h4, ihl (hs.mono ?_) h5, ihr (hs.mono ?_) h6⟩
    · intro x hx
      simp [inorder, hx]
    · intro x hx
      simp [inorder, hx]

theorem spellsAround_congr {k k' : Links α} {p h : α} {c : List (Turn α)}
    (hs : SameOn k k' (around c)) (hk : SpellsAround null k p c h) :
    SpellsAround null k' p c h := by
  induction c generalizing h with
  | nil => trivial
  | cons f c ih =>
    cases f with
    | left a r =>
      obtain ⟨h1, h2, h3, h4, h5, h6⟩ := hk
      obtain ⟨g1, g2, g3⟩ := hs a (by simp [around, after])
      refine ⟨h1, g1.trans h2, g2.trans h3, g3.trans h4, spells_congr (hs.mono ?_) h5,
        ih (hs.mono ?_) h6⟩
      · intro x hx
        simp [around, after, hx]
      · intro x hx
        simp only [around, before, after, List.mem_append, List.mem_cons] at hx ⊢
        tauto
    | right a l =>
      obtain ⟨h1, h2, h3, h4, h5, h6⟩ := hk
      obtain ⟨g1, g2, g3⟩ := hs a (by simp [around, before])
      refine ⟨h1, g1.trans h2, g2.trans h3, g3.trans h4, spells_congr (hs.mono ?_) h5,
        ih (hs.mono ?_) h6⟩
      · intro x hx
        simp [around, before, hx]
      · intro x hx
        simp only [around, before, after, List.mem_append, List.mem_cons] at hx ⊢
        tauto

/-! ## The parts around a node -/

/-- The parts of a tree with such a node `b` have no node in common. -/
structure Apart (c : List (Turn α)) (b : α) (l : BinaryTree α) (d : List (Turn α)) (m : α)
    (e : List (Turn α)) : Prop where
  nodup_c : (around c).Nodup
  nodup_l : (inorder l).Nodup
  nodup_d : (around d).Nodup
  nodup_e : (around e).Nodup
  b_ne_m : b ≠ m
  b_c : b ∉ around c
  b_l : b ∉ inorder l
  b_d : b ∉ around d
  b_e : b ∉ around e
  m_c : m ∉ around c
  m_l : m ∉ inorder l
  m_d : m ∉ around d
  m_e : m ∉ around e
  c_l : ∀ x ∈ around c, x ∉ inorder l
  c_d : ∀ x ∈ around c, x ∉ around d
  c_e : ∀ x ∈ around c, x ∉ around e
  l_d : ∀ x ∈ inorder l, x ∉ around d
  l_e : ∀ x ∈ inorder l, x ∉ around e
  d_e : ∀ x ∈ around d, x ∉ around e

theorem apart_of_nodup {c d e : List (Turn α)} {b m : α} {l : BinaryTree α}
    (h : (inorder (plug c (.node b l (plug d (.node m .nil (plug e .nil)))))).Nodup) :
    Apart c b l d m e := by
  classical
  have hparts : (b :: m :: (around c ++ (inorder l ++ (around d ++ around e)))).Nodup := by
    rw [(List.perm_iff_count.mpr _).nodup_iff] at h
    · exact h
    · intro x
      simp only [inorder_plug, inorder, around, List.count_append, List.count_cons,
        List.count_nil]
      omega
  rw [List.nodup_cons, List.nodup_cons] at hparts
  simp only [List.mem_cons, List.mem_append, not_or] at hparts
  obtain ⟨⟨h1, h2, h3, h4, h5⟩, ⟨g2, g3, g4, g5⟩, hparts⟩ := hparts
  obtain ⟨hc, hparts, hcx⟩ := List.nodup_append.mp hparts
  obtain ⟨hl, hparts, hlx⟩ := List.nodup_append.mp hparts
  obtain ⟨hd, he, hdx⟩ := List.nodup_append.mp hparts
  exact {
    nodup_c := hc
    nodup_l := hl
    nodup_d := hd
    nodup_e := he
    b_ne_m := h1
    b_c := h2
    b_l := h3
    b_d := h4
    b_e := h5
    m_c := g2
    m_l := g3
    m_d := g4
    m_e := g5
    c_l := fun x hx hy => hcx x hx x (List.mem_append_left _ hy) rfl
    c_d := fun x hx hy => hcx x hx x (List.mem_append_right _ (List.mem_append_left _ hy)) rfl
    c_e := fun x hx hy => hcx x hx x (List.mem_append_right _ (List.mem_append_right _ hy)) rfl
    l_d := fun x hx hy => hlx x hx x (List.mem_append_left _ hy) rfl
    l_e := fun x hx hy => hlx x hx x (List.mem_append_right _ hy) rfl
    d_e := fun x hx hy => hdx x hx x hy rfl }

section

variable [DecidableEq α]

/-- A subtree goes under another parent. -/
theorem spells_reparent {k : Links α} {p : α} {t : BinaryTree α} (q : α) (h : Spells null k p t)
    (hd : (inorder t).Nodup) :
    Spells null { k with parent := Function.update k.parent (root null t) q } q t := by
  cases t with
  | nil => trivial
  | node a l r =>
    obtain ⟨h1, h2, h3, h4, h5, h6⟩ := h
    rw [inorder, List.nodup_middle, List.nodup_cons, List.mem_append] at hd
    refine ⟨h1, by simp [root], h3, h4, spells_congr ?_ h5, spells_congr ?_ h6⟩
    · intro x hx
      have hne : x ≠ a := by
        rintro rfl
        exact hd.1 (Or.inl hx)
      simp [root, hne]
    · intro x hx
      have hne : x ≠ a := by
        rintro rfl
        exact hd.1 (Or.inr hx)
      simp [root, hne]

/-- The store of `h` in the link into the hole, unless the hole is the whole tree. -/
def setHole (k : Links α) (h : α) : List (Turn α) → Links α
  | [] => k
  | .left a _ :: _ => { k with left := Function.update k.left a h }
  | .right a _ :: _ => { k with right := Function.update k.right a h }

theorem setHole_parent (k : Links α) (h : α) (c : List (Turn α)) :
    (setHole k h c).parent = k.parent := by
  cases c with
  | nil => rfl
  | cons f c => cases f <;> rfl

/-- No link changes but one of the node above the hole. -/
theorem setHole_sameOn (k : Links α) (h : α) {c : List (Turn α)} {p : α} {l : List α}
    (hl : top p c ∉ l) : SameOn k (setHole k h c) l := by
  intro x hx
  cases c with
  | nil => exact ⟨rfl, rfl, rfl⟩
  | cons f c =>
    cases f with
    | left a r =>
      have hne : x ≠ a := by
        rintro rfl
        exact hl hx
      simp [setHole, hne]
    | right a r =>
      have hne : x ≠ a := by
        rintro rfl
        exact hl hx
      simp [setHole, hne]

theorem spellsAround_setHole {k : Links α} {p h : α} {c : List (Turn α)} (h' : α)
    (hk : SpellsAround null k p c h) (hd : (around c).Nodup) :
    SpellsAround null (setHole k h' c) p c h' := by
  cases c with
  | nil => trivial
  | cons f c =>
    cases f with
    | left a r =>
      obtain ⟨h1, h2, h3, h4, h5, h6⟩ := hk
      simp only [around, before, after, List.cons_append] at hd
      rw [List.nodup_middle, List.nodup_cons] at hd
      refine ⟨h1, h2, by simp [setHole], h4, spells_congr ?_ h5, spellsAround_congr ?_ h6⟩
      · exact setHole_sameOn (p := p) k h' fun hm => hd.1 (by
          simp only [top] at hm
          simp [hm])
      · exact setHole_sameOn (p := p) k h' fun hm => hd.1 (by
          simp only [top, around, List.mem_append] at hm ⊢
          tauto)
    | right a l =>
      obtain ⟨h1, h2, h3, h4, h5, h6⟩ := hk
      simp only [around, before, after] at hd
      have hd' : (a :: (before c ++ inorder l ++ after c)).Nodup := by
        rw [← List.nodup_middle]
        simpa using hd
      rw [List.nodup_cons] at hd'
      refine ⟨h1, h2, h3, by simp [setHole], spells_congr ?_ h5, spellsAround_congr ?_ h6⟩
      · exact setHole_sameOn (p := p) k h' fun hm => hd'.1 (by
          simp only [top] at hm
          simp [hm])
      · exact setHole_sameOn (p := p) k h' fun hm => hd'.1 (by
          simp only [top, around, List.mem_append] at hm ⊢
          tauto)

/-- A part of the tree without the node above the hole keeps its links. -/
theorem setHole_sameOn_of_disjoint (k : Links α) (h : α) {c : List (Turn α)} {l : List α}
    (hl : ∀ x ∈ l, x ∉ around c) : SameOn k (setHole k h c) l := by
  cases c with
  | nil => exact fun x _ => ⟨rfl, rfl, rfl⟩
  | cons f c =>
    apply setHole_sameOn (p := h)
    intro ht
    apply hl _ ht
    cases f with
    | left a r => simp [top, around, after]
    | right a r => simp [top, around, before]

/-! ## A new leaf, and a node with one child at most -/

theorem spells_insert {k : Links α} {p a : α} {c : List (Turn α)}
    (h : Spells null k p (plug c .nil))
    (hd : (around c).Nodup) (ha : a ≠ null) (hac : a ∉ around c) :
    Spells null
      { parent := Function.update k.parent a (top p c)
        left := Function.update (setHole k a c).left a null
        right := Function.update (setHole k a c).right a null } p
      (plug c (.node a .nil .nil)) := by
  rw [spells_plug] at h ⊢
  refine ⟨⟨ha, by simp, by simp [root], by simp [root], trivial, trivial⟩, ?_⟩
  apply spellsAround_congr _ (spellsAround_setHole a h.2 hd)
  intro x hx
  have hxa : x ≠ a := by
    rintro rfl
    exact hac hx
  simp only [Function.update_of_ne hxa, setHole_parent, and_self]

/-- A node without children goes. -/
theorem spells_drop {k : Links α} {p : α} {c : List (Turn α)} {t : BinaryTree α}
    (h : Spells null k p (plug c t)) (hd : (around c).Nodup) :
    Spells null (setHole k null c) p (plug c .nil) := by
  rw [spells_plug] at h ⊢
  exact ⟨trivial, spellsAround_setHole null h.2 hd⟩

/-- The child `t` takes the place of its parent `b`. -/
theorem spells_lift {k : Links α} {p b : α} {c : List (Turn α)} {l r t : BinaryTree α}
    (h : Spells null k p (plug c (.node b l r))) (ht : t = l ∨ t = r) (ht0 : t ≠ .nil)
    (hn : (inorder (plug c (.node b l r))).Nodup) :
    Spells null { setHole k (root null t) c with
      parent := Function.update k.parent (root null t) (top p c) } p (plug c t) := by
  have hparts : (around c ++ inorder (.node b l r)).Nodup := by
    rw [(List.perm_iff_count.mpr _).nodup_iff] at hn
    · exact hn
    · intro x
      simp only [inorder_plug, around, List.count_append]
      omega
  obtain ⟨hc, hnode, hcx⟩ := List.nodup_append.mp hparts
  have hsub : inorder t ⊆ inorder (.node b l r) := by
    intro x hx
    rw [inorder]
    rcases ht with rfl | rfl
    · exact List.mem_append_left _ hx
    · exact List.mem_append_right _ (List.mem_cons_of_mem _ hx)
  have htn : (inorder t).Nodup := by
    rw [inorder] at hnode
    rcases ht with rfl | rfl
    · exact (List.nodup_append.mp hnode).1
    · exact (List.nodup_cons.mp (List.nodup_append.mp hnode).2.1).2
  have hroot : root null t ∈ inorder t := root_mem ht0
  rw [spells_plug] at h ⊢
  obtain ⟨⟨-, -, -, -, hsl, hsr⟩, hsc⟩ := h
  have hst : Spells null k b t := by
    rcases ht with rfl | rfl
    · exact hsl
    · exact hsr
  constructor
  · apply spells_congr _ (spells_reparent (top p c) hst htn)
    intro x hx
    have hk := setHole_sameOn_of_disjoint k (root null t) (c := c) (l := inorder t)
      (fun y hy hyc => hcx y hyc y (hsub hy) rfl) x hx
    exact ⟨rfl, hk.2⟩
  · apply spellsAround_congr _ (spellsAround_setHole (root null t) hsc hc)
    intro x hx
    have hxr : x ≠ root null t := by
      rintro rfl
      exact hcx _ hx _ (hsub hroot) rfl
    simp only [Function.update_of_ne hxr, setHole_parent, and_self]

/-! ## A node with two children -/

/-- The stores that put `m`, the first node of the right subtree of `b`, in the
place of `b`. The path `d` leads to `m`. -/
def replaced (null : α) (k : Links α) (p : α) (c : List (Turn α)) (b : α) (l : BinaryTree α)
    (d : List (Turn α)) (m : α) : Links α where
  parent := Function.update (Function.update k.parent m (top p c)) (root null l) m
  left := Function.update (Function.update (setHole k m c).left m (root null l)) (top b d) null
  right := (setHole k m c).right

/-- What is left of the right subtree then goes below `m`, past the last node that
was there, to which the path `e` leads. -/
def splice (null : α) (k : Links α) (p : α) (c : List (Turn α)) (b : α) (l : BinaryTree α)
    (d : List (Turn α)) (m : α) (e : List (Turn α)) : Links α :=
  let k' := replaced null k p c b l d m
  if d = [] then k'
  else { k' with
    parent := Function.update k'.parent (entry null d) (top m e)
    right := Function.update k'.right (top m e) (entry null d) }

section

variable {k : Links α} {p b m x : α} {c d e : List (Turn α)} {l : BinaryTree α}

/-- The links of a node after the stores, when it is not above or below a store. -/
theorem splice_parent (h1 : x ≠ m) (h2 : x ≠ root null l) (h3 : d ≠ [] → x ≠ entry null d) :
    (splice null k p c b l d m e).parent x = k.parent x := by
  unfold splice replaced
  by_cases hd : d = []
  · rw [if_pos hd]
    simp only [Function.update_of_ne h1, Function.update_of_ne h2]
  · rw [if_neg hd]
    simp only [Function.update_of_ne h1, Function.update_of_ne h2, Function.update_of_ne (h3 hd)]

theorem splice_left (h1 : x ≠ m) (h2 : x ≠ top b d) :
    (splice null k p c b l d m e).left x = (setHole k m c).left x := by
  unfold splice replaced
  by_cases hd : d = []
  · rw [if_pos hd]
    simp only [Function.update_of_ne h1, Function.update_of_ne h2]
  · rw [if_neg hd]
    simp only [Function.update_of_ne h1, Function.update_of_ne h2]

theorem splice_right (h : d ≠ [] → x ≠ top m e) :
    (splice null k p c b l d m e).right x = (setHole k m c).right x := by
  unfold splice replaced
  by_cases hd : d = []
  · rw [if_pos hd]
  · rw [if_neg hd]
    simp only [Function.update_of_ne (h hd)]

variable (ha : Apart c b l d m e) (hl : l ≠ .nil)

include ha hl

theorem splice_around_c (hc : SpellsAround null k p c b) :
    SpellsAround null (splice null k p c b l d m e) p c m := by
  apply spellsAround_congr _ (spellsAround_setHole m hc ha.nodup_c)
  intro x hx
  have hxm : x ≠ m := by
    rintro rfl
    exact ha.m_c hx
  have hxl : x ≠ root null l := by
    rintro rfl
    exact ha.c_l _ hx (root_mem hl)
  have hxd : d ≠ [] → x ≠ entry null d := by
    rintro hd rfl
    exact ha.c_d _ hx (entry_null_mem hd)
  have hxb : x ≠ top b d := by
    rintro rfl
    rcases top_mem b d with h | h
    · exact ha.b_c (h ▸ hx)
    · exact ha.c_d _ hx h
  have hxe : x ≠ top m e := by
    rintro rfl
    rcases top_mem m e with h | h
    · exact ha.m_c (h ▸ hx)
    · exact ha.c_e _ hx h
  rw [setHole_parent]
  exact ⟨splice_parent hxm hxl hxd, splice_left hxm hxb, splice_right fun _ => hxe⟩

omit hl in
theorem splice_l (h : Spells null k b l) : Spells null (splice null k p c b l d m e) m l := by
  apply spells_congr _ (spells_reparent m h ha.nodup_l)
  intro x hx
  have hk := setHole_sameOn_of_disjoint k m (c := c) (l := inorder l)
    (fun y hy hyc => ha.c_l y hyc hy) x hx
  have hxm : x ≠ m := by
    rintro rfl
    exact ha.m_l hx
  have hxd : d ≠ [] → x ≠ entry null d := by
    rintro hd rfl
    exact ha.l_d _ hx (entry_null_mem hd)
  have hxb : x ≠ top b d := by
    rintro rfl
    rcases top_mem b d with h | h
    · exact ha.b_l (h ▸ hx)
    · exact ha.l_d _ hx h
  have hxe : x ≠ top m e := by
    rintro rfl
    rcases top_mem m e with h | h
    · exact ha.m_l (h ▸ hx)
    · exact ha.l_e _ hx h
  refine ⟨?_, (splice_left hxm hxb).trans hk.2.1, (splice_right fun _ => hxe).trans hk.2.2⟩
  by_cases hxl : x = root null l
  · subst hxl
    unfold splice replaced
    by_cases hd : d = []
    · simp [hd]
    · simp [hd, hxd hd]
  · rw [splice_parent hxm hxl hxd]
    simp [hxl]

theorem splice_m (hr : k.right m = entry null e) :
    (splice null k p c b l d m e).parent m = top p c ∧
      (splice null k p c b l d m e).left m = root null l ∧
      (splice null k p c b l d m e).right m = entry (entry null d) e := by
  have hk := setHole_sameOn_of_disjoint k m (c := c) (l := [m])
    (fun y hy hyc => ha.m_c (List.mem_singleton.mp hy ▸ hyc)) m (by simp)
  have hml : m ≠ root null l := fun h => ha.m_l (h ▸ root_mem hl)
  have hmd : d ≠ [] → m ≠ entry null d := fun hd h => ha.m_d (h ▸ entry_null_mem hd)
  have hmb : m ≠ top b d := by
    intro h
    rcases top_mem b d with g | g
    · exact ha.b_ne_m (h.trans g).symm
    · exact ha.m_d (h ▸ g)
  refine ⟨?_, ?_, ?_⟩
  · unfold splice replaced
    by_cases hd : d = []
    · simp [hd, hml]
    · simp [hd, hml, hmd hd]
  · unfold splice replaced
    by_cases hd : d = []
    · subst hd
      simp [hmb]
    · simp [hd, hmb]
  · by_cases hd : d = []
    · subst hd
      rw [splice_right fun h => absurd rfl h, hk.2.2, hr]
      rfl
    · cases e with
      | nil =>
        unfold splice replaced
        simp [hd, top, entry]
      | cons f e =>
        have hme : m ≠ top m (f :: e) := by
          intro h
          apply ha.m_e
          rw [h]
          cases f <;> simp [top, around, before, after]
        rw [splice_right fun _ => hme, hk.2.2, hr]
        exact entry_of_ne_nil (by simp) _ _

theorem splice_around_e (he : ∀ f ∈ e, f.IsRight) (h : SpellsAround null k m e null) :
    SpellsAround null (splice null k p c b l d m e) m e (entry null d) := by
  have hother : ∀ x ∈ around e, (splice null k p c b l d m e).parent x = k.parent x ∧
      (splice null k p c b l d m e).left x = k.left x ∧ (setHole k m c).right x = k.right x := by
    intro x hx
    have hk := setHole_sameOn_of_disjoint k m (c := c) (l := around e)
      (fun y hy hyc => ha.c_e y hyc hy) x hx
    have hxm : x ≠ m := by
      rintro rfl
      exact ha.m_e hx
    have hxl : x ≠ root null l := by
      rintro rfl
      exact ha.l_e _ (root_mem hl) hx
    have hxd : d ≠ [] → x ≠ entry null d := by
      rintro hd rfl
      exact ha.d_e _ (entry_null_mem hd) hx
    have hxb : x ≠ top b d := by
      rintro rfl
      rcases top_mem b d with g | g
      · exact ha.b_e (g ▸ hx)
      · exact ha.d_e _ g hx
    exact ⟨splice_parent hxm hxl hxd, (splice_left hxm hxb).trans hk.2.1, hk.2.2⟩
  by_cases hd : d = []
  · subst hd
    apply spellsAround_congr _ h
    intro x hx
    obtain ⟨h1, h2, h3⟩ := hother x hx
    exact ⟨h1, h2, (splice_right fun h => absurd rfl h).trans h3⟩
  · apply spellsAround_congr _ (spellsAround_setHole (entry null d) h ha.nodup_e)
    intro x hx
    obtain ⟨h1, h2, h3⟩ := hother x hx
    cases e with
    | nil => exact absurd hx (by simp [around, before, after])
    | cons f e =>
      cases f with
      | left a r => exact (he (.left a r) (by simp)).elim
      | right a r =>
        refine ⟨h1, h2, ?_⟩
        by_cases hxa : x = a
        · subst hxa
          unfold splice replaced
          simp [hd, top, setHole]
        · rw [splice_right fun _ => hxa, h3]
          simp [setHole, hxa]

theorem splice_d (hd : ∀ f ∈ d, f.IsLeft) (h : SpellsAround null k b d m) :
    Spells null (splice null k p c b l d m e) (top m e) (plug d .nil) := by
  by_cases hd0 : d = []
  · subst hd0
    trivial
  · have h1 : Spells null (setHole k null d) b (plug d .nil) :=
      (spells_plug _ _ _ _).mpr ⟨trivial, spellsAround_setHole null h ha.nodup_d⟩
    have hin : inorder (plug d BinaryTree.nil) = around d := inorder_plug d .nil
    have h2 := spells_reparent (top m e) h1 (hin ▸ ha.nodup_d)
    apply spells_congr _ h2
    rw [hin, root_plug, root_nil]
    intro x hx
    have hk := setHole_sameOn_of_disjoint k m (c := c) (l := around d)
      (fun y hy hyc => ha.c_d y hyc hy) x hx
    have hxm : x ≠ m := by
      rintro rfl
      exact ha.m_d hx
    have hxl : x ≠ root null l := by
      rintro rfl
      exact ha.l_d _ (root_mem hl) hx
    have hxe : x ≠ top m e := by
      rintro rfl
      rcases top_mem m e with g | g
      · exact ha.m_d (g ▸ hx)
      · exact ha.d_e _ hx g
    refine ⟨?_, ?_, ?_⟩
    · by_cases hxn : x = entry null d
      · subst hxn
        unfold splice replaced
        simp [hd0, root]
      · rw [splice_parent hxm hxl fun _ => hxn]
        simp only [Function.update_of_ne hxn, setHole_parent]
    · cases d with
      | nil => exact absurd rfl hd0
      | cons f d =>
        cases f with
        | left a r =>
          by_cases hxa : x = a
          · subst hxa
            unfold splice replaced
            simp [top, setHole]
          · have hxt : x ≠ top b (.left a r :: d) := hxa
            rw [splice_left hxm hxt, hk.2.1]
            simp [setHole, hxa]
        | right a r => exact (hd (.right a r) (by simp)).elim
    · rw [splice_right fun _ => hxe, hk.2.2]
      cases d with
      | nil => rfl
      | cons f d =>
        cases f with
        | left a r => rfl
        | right a r => exact (hd (.right a r) (by simp)).elim

end

/-- The stores of `splice` turn the one tree into the other. -/
theorem spells_splice {k : Links α} {p b m : α} {c d e : List (Turn α)} {l : BinaryTree α}
    (hl : l ≠ .nil) (hd : ∀ f ∈ d, f.IsLeft) (he : ∀ f ∈ e, f.IsRight)
    (h : Spells null k p (plug c (.node b l (plug d (.node m .nil (plug e .nil))))))
    (hn : (inorder (plug c (.node b l (plug d (.node m .nil (plug e .nil)))))).Nodup) :
    Spells null (splice null k p c b l d m e) p (plug c (.node m l (plug e (plug d .nil)))) := by
  have ha := apart_of_nodup hn
  rw [spells_plug] at h
  obtain ⟨⟨-, -, -, -, hsl, hsr⟩, hc⟩ := h
  rw [spells_plug] at hsr
  obtain ⟨⟨hm, -, -, hrm, -, hsR⟩, hsd⟩ := hsr
  rw [spells_plug] at hsR
  rw [root_plug, root_nil] at hrm
  obtain ⟨h1, h2, h3⟩ := splice_m (p := p) ha hl hrm
  rw [spells_plug]
  refine ⟨⟨hm, h1, h2, ?_, splice_l ha hsl, ?_⟩, splice_around_c ha hl hc⟩
  · rw [h3, root_plug, root_plug]
    rfl
  · rw [spells_plug, root_plug]
    exact ⟨splice_d ha hl hd hsd, splice_around_e ha hl he hsR.2⟩

end

end linked_tree
