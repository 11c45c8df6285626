-- The laws of the tree of code blocks. The links spell a search tree for each
-- page, and a deletion that splices the next block in keeps the order, so the
-- search misses nothing, whatever was added and deleted before.
import BluMach.CodeblockTree
import BluMach.LinkedTree

namespace blumach.codeblock_tree

open search_tree linked_tree

/-! ## The tree of a page -/

def links (s : TreeState) : Links Block := ⟨s.parent, s.left, s.right⟩

def key (s : TreeState) (b : Block) : Nat := (block_cmp s b).toNat

/-- The links from the head of the page spell `t`, in the order of the keys. -/
structure PageTree (s : TreeState) (page : BitVec 32) (t : BinaryTree Block) : Prop where
  head : s.head page = root BLOCK_INVALID t
  spells : Spells BLOCK_INVALID (links s) BLOCK_INVALID t
  nodup : (inorder t).Nodup
  ordered : Ordered (key s) t

/-- The blocks of the tree of each page are the live ones of that page. -/
def TreesOk (s : TreeState) (live : Set Block) : Prop :=
  ∀ page, ∃ t, PageTree s page t ∧ ∀ b, b ∈ inorder t ↔ b ∈ live ∧ s.phys b >>> 12 = page

/-- The fuel lasts for any tree. -/
theorem length_lt_fuel {l : List Block} (h : l.Nodup) : l.length < fuel := by
  have hinj : Function.Injective (BitVec.toFin : Block → Fin (2 ^ 16)) := by
    intro a b hab
    exact BitVec.eq_of_toFin_eq hab
  have hle := (h.map hinj).length_le_card
  rw [List.length_map, Fintype.card_fin] at hle
  unfold fuel
  omega

/-- The key is the pair. -/
theorem cmp_inj {_cs _cs' phys phys' : BitVec 32} (h : cmp _cs phys = cmp _cs' phys') :
    _cs = _cs' ∧ phys = phys' := by
  unfold cmp at h
  constructor
  · apply BitVec.eq_of_getLsbD_eq
    intro i hi
    have hbit := congrArg (fun x => x.getLsbD i) h
    simpa [hi, show i < 64 by omega] using hbit
  · apply BitVec.eq_of_getLsbD_eq
    intro i hi
    have hbit := congrArg (fun x => x.getLsbD (32 + i)) h
    simpa [show 32 + i < 64 by omega, show ¬32 + i < 32 by omega] using hbit

/-! ## Search -/

theorem findLoop_spec {s : TreeState} (a : BitVec 64) (cur : BitVec 16) {k : Links Block}
    {p : Block} {t : BinaryTree Block} {n : Nat} (hl : k.left = s.left) (hr : k.right = s.right)
    (hk : Spells BLOCK_INVALID k p t) (ho : Ordered (key s) t) (hn : (inorder t).length < n) :
    ∃ r, findLoop a cur s n (root BLOCK_INVALID t) = some r ∧
      ((r = BLOCK_INVALID ∧
        ∀ b ∈ inorder t, ¬(a = block_cmp s b ∧ statusFits (s.status b) cur = true)) ∨
      (r ∈ inorder t ∧ a = block_cmp s r ∧ statusFits (s.status r) cur = true)) := by
  induction t generalizing n p with
  | nil =>
    cases n with
    | zero => exact absurd hn (by simp)
    | succ n => exact ⟨BLOCK_INVALID, rfl, Or.inl ⟨rfl, by simp [inorder]⟩⟩
  | node b l r ihl ihr =>
    obtain ⟨h1, -, h3, h4, h5, h6⟩ := hk
    obtain ⟨o1, o2, o3, o4⟩ := ho
    rw [inorder, List.length_append, List.length_cons] at hn
    cases n with
    | zero => exact absurd hn (by simp)
    | succ n =>
      have hmem : ∀ x, x ∈ inorder (.node b l r) ↔ x ∈ inorder l ∨ x = b ∨ x ∈ inorder r := by
        intro x
        rw [inorder, List.mem_append, List.mem_cons]
      unfold findLoop
      rw [root, if_neg h1]
      by_cases hb : a = block_cmp s b ∧ statusFits (s.status b) cur = true
      · rw [if_pos hb]
        exact ⟨b, rfl, Or.inr ⟨(hmem b).mpr (Or.inr (Or.inl rfl)), hb⟩⟩
      · rw [if_neg hb]
        by_cases hab : a < block_cmp s b
        · rw [if_pos hab, ← hl, h3]
          obtain ⟨x, hx, hcase⟩ := ihl h5 o3 (n := n) (by omega)
          refine ⟨x, hx, ?_⟩
          rcases hcase with ⟨hx0, hno⟩ | ⟨hxm, hxa⟩
          · left
            refine ⟨hx0, ?_⟩
            rintro y hy ⟨rfl, hst⟩
            rcases (hmem y).mp hy with hy | rfl | hy
            · exact hno y hy ⟨rfl, hst⟩
            · exact hb ⟨rfl, hst⟩
            -- Nothing on the right is as small as the key of the search.
            · have := o2 y hy
              rw [BitVec.lt_def] at hab
              unfold key at this
              omega
          · exact Or.inr ⟨(hmem x).mpr (Or.inl hxm), hxa⟩
        · rw [if_neg hab, ← hr, h4]
          obtain ⟨x, hx, hcase⟩ := ihr h6 o4 (n := n) (by omega)
          refine ⟨x, hx, ?_⟩
          rcases hcase with ⟨hx0, hno⟩ | ⟨hxm, hxa⟩
          · left
            refine ⟨hx0, ?_⟩
            rintro y hy ⟨rfl, hst⟩
            rcases (hmem y).mp hy with hy | rfl | hy
            · have := o1 y hy
              rw [BitVec.lt_def] at hab
              unfold key at this
              omega
            · exact hb ⟨rfl, hst⟩
            · exact hno y hy ⟨rfl, hst⟩
          · exact Or.inr ⟨(hmem x).mpr (Or.inr (Or.inr hxm)), hxa⟩

/-- The blocks that `codeblock_tree_find` looks for. -/
def Matches (s : TreeState) (phys _cs : BitVec 32) (cpu_cur_status : BitVec 16) (b : Block) :
    Prop :=
  s.phys b = phys ∧ s._cs b = _cs ∧ statusFits (s.status b) cpu_cur_status = true

theorem find_spec {s : TreeState} {live : Set Block} (h : TreesOk s live) (phys _cs : BitVec 32)
    (cur : BitVec 16) :
    ∃ r, codeblock_tree_find phys _cs cur s = some r ∧
      (r ≠ BLOCK_INVALID → r ∈ live ∧ Matches s phys _cs cur r) ∧
      ((∃ b ∈ live, Matches s phys _cs cur b) → r ≠ BLOCK_INVALID) := by
  obtain ⟨t, ht, hlive⟩ := h (phys >>> 12)
  obtain ⟨r, hr, hcase⟩ := findLoop_spec (cmp _cs phys) cur rfl rfl ht.spells ht.ordered
    (length_lt_fuel ht.nodup)
  have hfind : codeblock_tree_find phys _cs cur s = some r := by
    unfold codeblock_tree_find
    rw [ht.head]
    by_cases h0 : root BLOCK_INVALID t = BLOCK_INVALID
    · rw [if_pos h0, ← hr, h0]
      rfl
    · rw [if_neg h0, hr]
  refine ⟨r, hfind, ?_, ?_⟩
  · intro hr0
    rcases hcase with ⟨hr0', -⟩ | ⟨hrm, hra, hst⟩
    · exact absurd hr0' hr0
    · obtain ⟨hcs, hphys⟩ := cmp_inj hra
      exact ⟨((hlive r).mp hrm).1, hphys.symm, hcs.symm, hst⟩
  · rintro ⟨b, hb, hphys, hcs, hst⟩
    have hbt : b ∈ inorder t := (hlive b).mpr ⟨hb, by rw [hphys]⟩
    rcases hcase with ⟨-, hno⟩ | ⟨hrm, -⟩
    · refine absurd ⟨?_, hst⟩ (hno b hbt)
      unfold block_cmp
      rw [hphys, hcs]
    · exact ht.spells.ne_null hrm

/-! ## Insertion -/

/-- The search goes down to a hole that the new block fits. -/
theorem addLoop_spec {s : TreeState} {b : Block} {k : Links Block} {p : Block}
    {c : List (Turn Block)} {t : BinaryTree Block} {n : Nat} (hl : k.left = s.left)
    (hr : k.right = s.right) (hk : Spells BLOCK_INVALID k p t) (hc : Fits (key s) c b)
    (hn : (inorder t).length < n) :
    ∃ c', plug c t = plug c' .nil ∧ Fits (key s) c' b ∧
      addLoop (block_cmp s b) s n (root BLOCK_INVALID t) (top BLOCK_INVALID c) =
        some (top BLOCK_INVALID c') := by
  induction t generalizing n p c with
  | nil =>
    cases n with
    | zero => exact absurd hn (by simp)
    | succ n => exact ⟨c, rfl, hc, rfl⟩
  | node a l r ihl ihr =>
    obtain ⟨h1, -, h3, h4, h5, h6⟩ := hk
    rw [inorder, List.length_append, List.length_cons] at hn
    cases n with
    | zero => exact absurd hn (by simp)
    | succ n =>
      unfold addLoop
      rw [root, if_neg h1]
      by_cases hab : block_cmp s b < block_cmp s a
      · rw [if_pos hab, ← hl, h3]
        exact ihl h5 (c := .left a r :: c)
          ⟨by rwa [BitVec.lt_def] at hab, hc⟩ (n := n) (by omega)
      · rw [if_neg hab, ← hr, h4]
        have hle : key s a ≤ key s b := by
          rw [BitVec.lt_def] at hab
          unfold key
          omega
        exact ihr h6 (c := .right a l :: c) ⟨hle, hc⟩ (n := n) (by omega)

/-- The blocks keep their keys and states, and the other pages their heads. -/
structure SameBlocks (s s' : TreeState) (page : BitVec 32) : Prop where
  phys : s'.phys = s.phys
  _cs : s'._cs = s._cs
  status : s'.status = s.status
  head : ∀ page', page' ≠ page → s'.head page' = s.head page'

theorem SameBlocks.key {s s' : TreeState} {page : BitVec 32} (h : SameBlocks s s' page) :
    key s' = key s := by
  funext b
  unfold codeblock_tree.key block_cmp
  rw [h.phys, h._cs]

/-- The head of the page after the root of its tree became `nr`, and that of the
others. -/
def headed (s : TreeState) (page : BitVec 32) (nr : Block) (c : List (Turn Block)) :
    BitVec 32 → Block :=
  if c = [] then Function.update s.head page nr else s.head

/-- The state with other links, where `nr` fills the hole at `c`. -/
def relinked (s : TreeState) (page : BitVec 32) (nr : Block) (c : List (Turn Block))
    (k : Links Block) : TreeState :=
  { s with
    head := headed s page nr c
    parent := k.parent
    left := k.left
    right := k.right }

theorem relinked_same (s : TreeState) (page : BitVec 32) (nr : Block) (c : List (Turn Block))
    (k : Links Block) : SameBlocks s (relinked s page nr c k) page := by
  refine ⟨rfl, rfl, rfl, ?_⟩
  intro page' hp
  unfold relinked headed
  by_cases hc : c = []
  · simp only [if_pos hc]
    exact Function.update_of_ne hp _ _
  · simp only [if_neg hc]

theorem relinked_pageTree {s : TreeState} {page : BitVec 32} {c : List (Turn Block)}
    {k : Links Block} {t t' : BinaryTree Block} (ht : PageTree s page (plug c t))
    (hs : Spells BLOCK_INVALID k BLOCK_INVALID (plug c t')) (hn : (inorder (plug c t')).Nodup)
    (ho : Ordered (key s) (plug c t')) :
    PageTree (relinked s page (root BLOCK_INVALID t') c k) page (plug c t') := by
  refine ⟨?_, hs, hn, ?_⟩
  · unfold relinked headed
    by_cases hc : c = []
    · subst hc
      simp [plug]
    · simp only [if_neg hc]
      rw [ht.head, root_plug, root_plug]
      exact entry_of_ne_nil hc _ _
  · rw [(relinked_same s page _ c k).key]
    exact ho

/-- What an insertion of `b` in the tree `t` of its page leaves. -/
structure Added (s : TreeState) (b : Block) (t : BinaryTree Block) (s' : TreeState) : Prop where
  tree : ∃ t', PageTree s' (s.phys b >>> 12) t' ∧ ∀ x, x ∈ inorder t' ↔ x = b ∨ x ∈ inorder t
  same : SameBlocks s s' (s.phys b >>> 12)
  frame : ∀ l : List Block, (∀ x ∈ l, x ≠ b ∧ x ∉ inorder t) → SameOn (links s) (links s') l

/-- The links with `b` as a leaf in the hole at `c`. -/
def leafLinks (s : TreeState) (b : Block) (c : List (Turn Block)) : Links Block where
  parent := Function.update s.parent b (top BLOCK_INVALID c)
  left := Function.update (setHole (links s) b c).left b BLOCK_INVALID
  right := Function.update (setHole (links s) b c).right b BLOCK_INVALID

section

variable {s : TreeState} {b : Block} {c : List (Turn Block)}

/-- The block becomes a leaf where the search for its place ends. -/
theorem add_eq (ht : PageTree s (s.phys b >>> 12) (plug c .nil)) (hfit : Fits (key s) c b)
    (hloop : addLoop (block_cmp s b) s fuel (root BLOCK_INVALID (plug c .nil)) BLOCK_INVALID =
      some (top BLOCK_INVALID c)) :
    codeblock_tree_add b s = some (relinked s (s.phys b >>> 12) b c (leafLinks s b c)) := by
  unfold codeblock_tree_add relinked headed leafLinks
  cases c with
  | nil =>
    have h0 : s.head (s.phys b >>> 12) = BLOCK_INVALID := ht.head
    rw [if_pos h0]
    rfl
  | cons f c =>
    have h0 : s.head (s.phys b >>> 12) ≠ BLOCK_INVALID := by
      rw [ht.head, root_plug]
      refine ht.spells.ne_null ?_
      rw [inorder_plug]
      exact entry_null_mem (List.cons_ne_nil f c)
    have hspells := ht.spells
    rw [spells_plug] at hspells
    rw [if_neg h0, ht.head, hloop]
    cases f with
    | left a r =>
      have hab : block_cmp s b < block_cmp s a := by
        rw [BitVec.lt_def]
        exact hfit.1
      have htop : a ≠ BLOCK_INVALID := hspells.2.1
      simp [top, htop, hab, setHole, links]
    | right a l =>
      have hab : ¬block_cmp s b < block_cmp s a := by
        rw [BitVec.lt_def]
        have hle := hfit.1
        unfold key at hle
        omega
      have htop : a ≠ BLOCK_INVALID := hspells.2.1
      simp [top, htop, hab, setHole, links]

theorem leafLinks_frame {l : List Block} (hl : ∀ x ∈ l, x ≠ b ∧ x ∉ around c) :
    SameOn (links s) (leafLinks s b c) l := by
  intro x hx
  obtain ⟨hxb, hxc⟩ := hl x hx
  have hhole := setHole_sameOn_of_disjoint (links s) b (c := c) (l := [x])
    (fun y hy => by rw [List.mem_singleton.mp hy]; exact hxc) x (List.mem_singleton_self x)
  simp only [leafLinks, Function.update_of_ne hxb]
  exact ⟨rfl, hhole.2⟩

theorem mem_plug_leaf {x : Block} :
    x ∈ inorder (plug c (.node b .nil .nil)) ↔ x = b ∨ x ∈ around c := by
  rw [inorder_plug]
  simp only [inorder, around, List.mem_append, List.mem_cons, List.not_mem_nil, List.nil_append]
  tauto

theorem nodup_plug_leaf (h : (around c).Nodup) (hb : b ∉ around c) :
    (inorder (plug c (.node b .nil .nil))).Nodup := by
  rw [inorder_plug]
  exact List.nodup_middle.mpr (List.nodup_cons.mpr ⟨hb, h⟩)

end

theorem add_spec {s : TreeState} {b : Block} {t : BinaryTree Block}
    (ht : PageTree s (s.phys b >>> 12) t) (hb : b ≠ BLOCK_INVALID) (hbt : b ∉ inorder t) :
    ∃ s', codeblock_tree_add b s = some s' ∧ Added s b t s' := by
  obtain ⟨c, hc, hfit, hloop⟩ := addLoop_spec (b := b) (c := []) rfl rfl ht.spells trivial
    (length_lt_fuel ht.nodup)
  obtain rfl : t = plug c .nil := hc
  have hin : inorder (plug c (.nil : BinaryTree Block)) = around c := inorder_plug c .nil
  have hnodup := ht.nodup
  rw [hin] at hnodup hbt
  have hspells := spells_insert ht.spells hnodup hb hbt
  refine ⟨_, add_eq ht hfit hloop, ⟨_, relinked_pageTree ht hspells (nodup_plug_leaf hnodup hbt)
    (ordered_insert ht.ordered hfit), fun x => ?_⟩, relinked_same s _ b c _, fun l hl => ?_⟩
  · rw [hin]
    exact mem_plug_leaf
  · rw [hin] at hl
    exact leafLinks_frame hl

/-! ## Deletion -/

section

variable {s : TreeState} {b : Block} {c : List (Turn Block)} {l r : BinaryTree Block}

/-- The parent of the block has it as one child and not as the other. -/
theorem parent_links
    (h : Spells BLOCK_INVALID (links s) BLOCK_INVALID (plug c (.node b l r)))
    (hn : (inorder (plug c (.node b l r))).Nodup) :
    s.parent b = top BLOCK_INVALID c ∧
      match c with
      | [] => True
      | .left a _ :: _ => a ≠ BLOCK_INVALID ∧ s.left a = b ∧ s.right a ≠ b
      | .right a _ :: _ => a ≠ BLOCK_INVALID ∧ s.left a ≠ b ∧ s.right a = b := by
  rw [spells_plug] at h
  obtain ⟨⟨hb, hp, -⟩, hc⟩ := h
  refine ⟨hp, ?_⟩
  have hroot : ∀ t : BinaryTree Block, b ∉ inorder t → root BLOCK_INVALID t ≠ b := by
    intro t hbt hr
    cases t with
    | nil => exact hb hr.symm
    | node a t1 t2 => exact hbt (by simp [inorder, ← show a = b from hr])
  cases c with
  | nil => trivial
  | cons f c =>
    rw [inorder_plug] at hn
    cases f with
    | left a u =>
      obtain ⟨h1, -, h3, h4, -⟩ := hc
      refine ⟨h1, h3, ?_⟩
      change (links s).right a ≠ b
      rw [h4]
      apply hroot
      intro hbu
      have hdis := (List.nodup_append.mp (List.nodup_append.mp hn).2.1).2.2
      exact hdis b (by simp [inorder]) b (by simp [after, hbu]) rfl
    | right a u =>
      obtain ⟨h1, -, h3, h4, -⟩ := hc
      refine ⟨h1, ?_, h4⟩
      change (links s).left a ≠ b
      rw [h3]
      apply hroot
      intro hbu
      have hdis := (List.nodup_append.mp hn).2.2
      exact hdis b (by simp [before, hbu]) b (by simp [inorder]) rfl

theorem replaceChild_eq (nr : Block)
    (h : Spells BLOCK_INVALID (links s) BLOCK_INVALID (plug c (.node b l r)))
    (hn : (inorder (plug c (.node b l r))).Nodup) :
    replaceChild b nr s = relinked s (s.phys b >>> 12) nr c (setHole (links s) nr c) := by
  obtain ⟨hp, hc⟩ := parent_links h hn
  unfold replaceChild relinked headed
  cases c with
  | nil =>
    have hp0 : s.parent b = BLOCK_INVALID := hp
    simp [hp0, setHole, links]
  | cons f c =>
    cases f with
    | left a u =>
      obtain ⟨h1, h2, h3⟩ := hc
      have hpa : s.parent b = a := hp
      simp [hpa, h1, h2, h3, setHole, links]
    | right a u =>
      obtain ⟨h1, h2, h3⟩ := hc
      have hpa : s.parent b = a := hp
      simp [hpa, h1, h2, h3, setHole, links]

theorem promote_eq (child : Block)
    (h : Spells BLOCK_INVALID (links s) BLOCK_INVALID (plug c (.node b l r)))
    (hn : (inorder (plug c (.node b l r))).Nodup) :
    promote b child s = relinked s (s.phys b >>> 12) child c { setHole (links s) child c with
      parent := Function.update s.parent child (top BLOCK_INVALID c) } := by
  obtain ⟨hp, hc⟩ := parent_links h hn
  unfold promote relinked headed
  cases c with
  | nil =>
    have hp0 : s.parent b = BLOCK_INVALID := hp
    simp [hp0, setHole, links, top]
  | cons f c =>
    cases f with
    | left a u =>
      obtain ⟨h1, h2, h3⟩ := hc
      have hpa : s.parent b = a := hp
      simp [hpa, h1, h2, h3, setHole, links, top]
    | right a u =>
      obtain ⟨h1, h2, h3⟩ := hc
      have hpa : s.parent b = a := hp
      simp [hpa, h1, h2, h3, setHole, links, top]

end

/-! ### The walks -/

/-- The walk to the left ends at the first block. -/
theorem walk_left {k : Links Block} {p : Block} {t : BinaryTree Block} {n : Nat}
    (h : Spells BLOCK_INVALID k p t) (ht : t ≠ .nil) (hn : (inorder t).length < n) :
    ∃ d m r, t = plug d (.node m .nil r) ∧ (∀ f ∈ d, f.IsLeft) ∧
      walk k.left n (root BLOCK_INVALID t) = some m := by
  induction t generalizing n p with
  | nil => exact absurd rfl ht
  | node a l r ihl _ =>
    obtain ⟨-, -, h3, -, h5, -⟩ := h
    rw [inorder, List.length_append, List.length_cons] at hn
    cases n with
    | zero => exact absurd hn (by simp)
    | succ n =>
      unfold walk
      rw [root, h3]
      by_cases hl : l = .nil
      · subst hl
        exact ⟨[], a, r, rfl, by simp, by simp [root]⟩
      · have hne : root BLOCK_INVALID l ≠ BLOCK_INVALID := h5.ne_null (root_mem hl)
        obtain ⟨d, m, r', hd, hleft, hw⟩ := ihl h5 hl (n := n) (by omega)
        refine ⟨d ++ [.left a r], m, r', ?_, ?_, ?_⟩
        · rw [plug_append, ← hd]
          rfl
        · intro f hf
          rcases List.mem_append.mp hf with hf | hf
          · exact hleft f hf
          · rw [List.mem_singleton.mp hf]
            trivial
        · rw [if_neg hne, hw]

/-- The walk to the right ends above the hole past the last block. -/
theorem walk_right {k : Links Block} {p q : Block} {e : List (Turn Block)} {n : Nat}
    (h : Spells BLOCK_INVALID k p (plug e .nil)) (he : ∀ f ∈ e, f.IsRight) (he0 : e ≠ [])
    (hn : (inorder (plug e .nil)).length < n) :
    walk k.right n (root BLOCK_INVALID (plug e .nil)) = some (top q e) := by
  induction e using List.reverseRecOn generalizing n p with
  | nil => exact absurd rfl he0
  | append_singleton e f ih =>
    cases f with
    | left a r => exact (he (.left a r) (by simp)).elim
    | right a l =>
      rw [plug_append] at h hn ⊢
      simp only [plug] at h hn ⊢
      obtain ⟨-, -, -, h4, -, h6⟩ := h
      rw [inorder, List.length_append, List.length_cons] at hn
      cases n with
      | zero => exact absurd hn (by simp)
      | succ n =>
        unfold walk
        rw [root, h4]
        by_cases he1 : e = []
        · subst he1
          simp [plug, root, top]
        · have hne : root BLOCK_INVALID (plug e .nil) ≠ BLOCK_INVALID := by
            rw [root_plug]
            exact h6.ne_null (by
              rw [inorder_plug]
              exact entry_null_mem he1)
          rw [if_neg hne, ih h6 (fun f hf => he f (by simp [hf])) he1 (by omega), top_append]
          cases e with
          | nil => exact absurd rfl he1
          | cons f e => cases f <;> rfl

/-! ### Two children -/

section

variable {s : TreeState} {b m : Block} {c d e : List (Turn Block)} {l : BinaryTree Block}

theorem replaceByLowest_eq (hl : l ≠ .nil)
    (h : Spells BLOCK_INVALID (links s) BLOCK_INVALID
      (plug c (.node b l (plug d (.node m .nil (plug e .nil))))))
    (hn : (inorder (plug c (.node b l (plug d (.node m .nil (plug e .nil)))))).Nodup) :
    replaceByLowest b m s = relinked s (s.phys b >>> 12) m c
      (replaced BLOCK_INVALID (links s) BLOCK_INVALID c b l d m) := by
  have ha := apart_of_nodup hn
  have hp := (parent_links h hn).1
  have hrep := replaceChild_eq m h hn
  rw [spells_plug] at h
  obtain ⟨⟨-, -, hlb, -, hsl, hsr⟩, -⟩ := h
  rw [spells_plug] at hsr
  have hpm : s.parent m = top b d := hsr.1.2.1
  have hroot : root BLOCK_INVALID l ≠ BLOCK_INVALID := hsl.ne_null (root_mem hl)
  have hkb := setHole_sameOn_of_disjoint (links s) m (c := c) (l := [b])
    (fun y hy => by rw [List.mem_singleton.mp hy]; exact ha.b_c) b (by simp)
  have hleft : (setHole (links s) m c).left b = root BLOCK_INVALID l := hkb.2.1.trans hlb
  unfold replaceByLowest
  rw [hrep, hp, hpm]
  simp only [relinked, hleft, Function.update_self, ne_eq, hroot, not_false_eq_true, if_true,
    setHole_parent]
  rfl

/-- What there is on the right of `b` besides `m` and the blocks below it. -/
theorem entry_beyond (h : Spells BLOCK_INVALID (links s) BLOCK_INVALID
      (plug c (.node b l (plug d (.node m .nil (plug e .nil))))))
    (hn : (inorder (plug c (.node b l (plug d (.node m .nil (plug e .nil)))))).Nodup)
    (hd : d ≠ []) :
    entry m d = entry BLOCK_INVALID d ∧ entry m d ≠ m ∧ entry m d ≠ BLOCK_INVALID := by
  have ha := apart_of_nodup hn
  rw [spells_plug] at h
  obtain ⟨⟨-, -, -, -, -, hsr⟩, -⟩ := h
  rw [spells_plug] at hsr
  have hin : entry BLOCK_INVALID d ∈ around d := entry_null_mem hd
  have hspells : Spells BLOCK_INVALID (setHole (links s) BLOCK_INVALID d) b (plug d .nil) :=
    (spells_plug _ _ _ _).mpr ⟨trivial, spellsAround_setHole BLOCK_INVALID hsr.2 ha.nodup_d⟩
  rw [entry_of_ne_nil hd m BLOCK_INVALID]
  refine ⟨rfl, fun hm => ha.m_d (hm ▸ hin), hspells.ne_null ?_⟩
  rw [inorder_plug]
  exact hin

/-- The links to the right of `m` and of `b` are still those of before. -/
theorem right_links (h : Spells BLOCK_INVALID (links s) BLOCK_INVALID
      (plug c (.node b l (plug d (.node m .nil (plug e .nil))))))
    (hn : (inorder (plug c (.node b l (plug d (.node m .nil (plug e .nil)))))).Nodup) :
    (setHole (links s) m c).right m = entry BLOCK_INVALID e ∧
      (setHole (links s) m c).right b = entry m d := by
  have ha := apart_of_nodup hn
  rw [spells_plug] at h
  obtain ⟨⟨-, -, -, hrb, -, hsr⟩, -⟩ := h
  rw [spells_plug] at hsr
  obtain ⟨⟨-, -, -, hrm, -, -⟩, -⟩ := hsr
  rw [root_plug] at hrb hrm
  have hkm := setHole_sameOn_of_disjoint (links s) m (c := c) (l := [m])
    (fun y hy => by rw [List.mem_singleton.mp hy]; exact ha.m_c) m (by simp)
  have hkb := setHole_sameOn_of_disjoint (links s) m (c := c) (l := [b])
    (fun y hy => by rw [List.mem_singleton.mp hy]; exact ha.b_c) b (by simp)
  exact ⟨hkm.2.2.trans hrm, hkb.2.2.trans hrb⟩

/-- The search for the highest block on the right of `m`. -/
theorem walk_highest (h : Spells BLOCK_INVALID (links s) BLOCK_INVALID
      (plug c (.node b l (plug d (.node m .nil (plug e .nil))))))
    (hn : (inorder (plug c (.node b l (plug d (.node m .nil (plug e .nil)))))).Nodup)
    (he : ∀ f ∈ e, f.IsRight) (he0 : e ≠ []) :
    entry BLOCK_INVALID e ≠ BLOCK_INVALID ∧
      walk (setHole (links s) m c).right fuel (entry BLOCK_INVALID e) = some (top m e) := by
  have ha := apart_of_nodup hn
  rw [spells_plug] at h
  obtain ⟨⟨-, -, -, -, -, hsr⟩, -⟩ := h
  rw [spells_plug] at hsr
  obtain ⟨⟨-, -, -, -, -, hsR⟩, -⟩ := hsr
  have hR : Spells BLOCK_INVALID { links s with right := (setHole (links s) m c).right } m
      (plug e .nil) := by
    apply spells_congr _ hsR
    rw [inorder_plug]
    intro x hx
    have hk := setHole_sameOn_of_disjoint (links s) m (c := c) (l := around e)
      (fun y hy hyc => ha.c_e y hyc hy) x hx
    exact ⟨rfl, rfl, hk.2.2⟩
  have hlen : (inorder (plug e (.nil : BinaryTree Block))).length < fuel := by
    rw [inorder_plug]
    exact length_lt_fuel ha.nodup_e
  have hwalk := walk_right (q := m) hR he he0 hlen
  rw [root_plug] at hwalk
  refine ⟨hR.ne_null ?_, hwalk⟩
  rw [inorder_plug]
  exact entry_null_mem he0

/-- What is on the right of `b` besides goes below the highest block. -/
theorem hang_replaced (h : Spells BLOCK_INVALID (links s) BLOCK_INVALID
      (plug c (.node b l (plug d (.node m .nil (plug e .nil))))))
    (hn : (inorder (plug c (.node b l (plug d (.node m .nil (plug e .nil)))))).Nodup)
    (hd : d ≠ []) :
    hang b (top m e) (relinked s (s.phys b >>> 12) m c
        (replaced BLOCK_INVALID (links s) BLOCK_INVALID c b l d m)) =
      relinked s (s.phys b >>> 12) m c
        (splice BLOCK_INVALID (links s) BLOCK_INVALID c b l d m e) := by
  have ha := apart_of_nodup hn
  have hne : b ≠ top m e := by
    intro hb
    rcases top_mem m e with hm | he
    · exact ha.b_ne_m (hb.trans hm)
    · exact ha.b_e (hb ▸ he)
  unfold hang splice
  simp only [relinked, Function.update_of_ne hne, if_neg hd, ← (entry_beyond h hn hd).1,
    ← (right_links h hn).2]
  rfl

theorem deleteTwo_eq (hl : l ≠ .nil) (he : ∀ f ∈ e, f.IsRight)
    (h : Spells BLOCK_INVALID (links s) BLOCK_INVALID
      (plug c (.node b l (plug d (.node m .nil (plug e .nil))))))
    (hn : (inorder (plug c (.node b l (plug d (.node m .nil (plug e .nil)))))).Nodup)
    (hw : walk s.left fuel (s.right b) = some m) :
    deleteTwo b s = some (relinked s (s.phys b >>> 12) m c
      (splice BLOCK_INVALID (links s) BLOCK_INVALID c b l d m e)) := by
  obtain ⟨hm, hb⟩ := right_links h hn
  have hright : (relinked s (s.phys b >>> 12) m c
      (replaced BLOCK_INVALID (links s) BLOCK_INVALID c b l d m)).right =
      (setHole (links s) m c).right := rfl
  have hsame : d = [] → splice BLOCK_INVALID (links s) BLOCK_INVALID c b l d m e =
      replaced BLOCK_INVALID (links s) BLOCK_INVALID c b l d m := fun hd => if_pos hd
  have hhang := hang_replaced (e := e) h hn
  unfold deleteTwo
  rw [hw]
  simp only [replaceByLowest_eq hl h hn]
  rw [hright]
  simp only [hm, hb]
  by_cases he0 : e = []
  · subst he0
    rw [if_pos (show entry BLOCK_INVALID ([] : List (Turn Block)) = BLOCK_INVALID from rfl)]
    by_cases hd : d = []
    · rw [hsame hd, hd]
      simp [entry]
    · obtain ⟨-, hne, -⟩ := entry_beyond h hn hd
      rw [if_pos hne.symm]
      exact congrArg some (hhang hd)
  · obtain ⟨hne, hwalk⟩ := walk_highest h hn he he0
    rw [if_neg hne, hwalk]
    simp only
    by_cases hd : d = []
    · rw [hsame hd, hd]
      simp [entry]
    · obtain ⟨-, hm', h0⟩ := entry_beyond h hn hd
      rw [if_pos ⟨h0, hm'⟩, hhang hd]

end

/-! ### Any block -/

/-- The tree without the block `b`, whose subtrees stay in order. -/
theorem without_block {c : List (Turn Block)} {b : Block} {l r t : BinaryTree Block}
    (hin : inorder t = inorder l ++ inorder r) (hn : (inorder (plug c (.node b l r))).Nodup) :
    (inorder (plug c t)).Nodup ∧
      ∀ x, x ∈ inorder (plug c t) ↔ x ≠ b ∧ x ∈ inorder (plug c (.node b l r)) := by
  rw [inorder_plug, inorder] at hn
  rw [inorder_plug, inorder_plug, inorder, hin]
  have hperm : (before c ++ ((inorder l ++ b :: inorder r) ++ after c)).Perm
      (b :: (before c ++ ((inorder l ++ inorder r) ++ after c))) := by
    rw [List.perm_iff_count]
    intro x
    simp only [List.count_append, List.count_cons]
    omega
  rw [hperm.nodup_iff, List.nodup_cons] at hn
  refine ⟨hn.2, ?_⟩
  intro x
  rw [hperm.mem_iff, List.mem_cons]
  constructor
  · intro hx
    refine ⟨?_, Or.inr hx⟩
    rintro rfl
    exact hn.1 hx
  · rintro ⟨hxb, rfl | hx⟩
    · exact absurd rfl hxb
    · exact hx

/-- What a deletion of `b` from the tree `t` of its page leaves. -/
structure Deleted (s : TreeState) (b : Block) (t : BinaryTree Block) (s' : TreeState) : Prop where
  tree : ∃ t', PageTree s' (s.phys b >>> 12) t' ∧ ∀ x, x ∈ inorder t' ↔ x ≠ b ∧ x ∈ inorder t
  same : SameBlocks s s' (s.phys b >>> 12)
  frame : ∀ l : List Block, (∀ x ∈ l, x ∉ inorder t) → SameOn (links s) (links s') l

section

variable {s : TreeState} {b : Block} {c : List (Turn Block)} {l r : BinaryTree Block}

theorem not_around {x : Block} (hx : x ∉ inorder (plug c (.node b l r))) : x ∉ around c := by
  intro hxc
  apply hx
  rw [inorder_plug]
  unfold around at hxc
  simp only [List.mem_append] at hxc ⊢
  tauto

/-- Blocks that are not in the tree keep their links. -/
theorem setHole_frame (nr : Block) {x : Block} (hx : x ∉ inorder (plug c (.node b l r))) :
    SameOn (links s) (setHole (links s) nr c) [x] := by
  apply setHole_sameOn_of_disjoint
  intro y hy
  rw [List.mem_singleton.mp hy]
  exact not_around hx

/-- What the links `k` need for a deletion that puts the tree `u` in the place of that of `b`. -/
theorem deleted_of_links (ht : PageTree s (s.phys b >>> 12) (plug c (.node b l r)))
    {u : BinaryTree Block} {k : Links Block}
    (hdel : codeblock_tree_delete b s =
      some (relinked s (s.phys b >>> 12) (root BLOCK_INVALID u) c k))
    (hsp : Spells BLOCK_INVALID k BLOCK_INVALID (plug c u)) (ho : Ordered (key s) (plug c u))
    (hin : inorder u = inorder l ++ inorder r)
    (hsame : ∀ x, x ∉ inorder (plug c (.node b l r)) → SameOn (links s) k [x]) :
    ∃ s', codeblock_tree_delete b s = some s' ∧ Deleted s b (plug c (.node b l r)) s' := by
  obtain ⟨hn', hmem⟩ := without_block hin ht.nodup
  refine ⟨_, hdel, ⟨plug c u, relinked_pageTree ht hsp hn' ho, hmem⟩, relinked_same _ _ _ _ _, ?_⟩
  intro l' hl' x hx
  exact hsame x (hl' x hx) x List.mem_cons_self

/-- Without children the block only makes way. -/
theorem delete_leaf (ht : PageTree s (s.phys b >>> 12) (plug c (.node b .nil .nil))) :
    ∃ s', codeblock_tree_delete b s = some s' ∧ Deleted s b (plug c (.node b .nil .nil)) s' := by
  obtain ⟨-, -, hlb, hrb, -⟩ := ((spells_plug _ _ _ _).mp ht.spells).1
  have hlb' : s.left b = BLOCK_INVALID := hlb
  have hrb' : s.right b = BLOCK_INVALID := hrb
  apply @deleted_of_links _ _ _ _ _ ht .nil (setHole (links s) BLOCK_INVALID c)
  · unfold codeblock_tree_delete
    rw [if_pos ⟨hlb', hrb'⟩, replaceChild_eq _ ht.spells ht.nodup]
    rfl
  · exact spells_drop ht.spells (around_nodup_of ht.nodup)
  · exact ordered_lift ht.ordered (Or.inl rfl)
  · rfl
  · exact fun x => setHole_frame _

/-- The tree of an only child takes the place of the block. -/
theorem delete_lift (ht : PageTree s (s.phys b >>> 12) (plug c (.node b l r)))
    {u : BinaryTree Block} (hu : u = l ∨ u = r) (hu0 : u ≠ .nil)
    (hdel : codeblock_tree_delete b s = some (promote b (root BLOCK_INVALID u) s))
    (hin : inorder u = inorder l ++ inorder r) :
    ∃ s', codeblock_tree_delete b s = some s' ∧ Deleted s b (plug c (.node b l r)) s' := by
  rw [promote_eq _ ht.spells ht.nodup] at hdel
  apply deleted_of_links ht hdel
  · exact spells_lift ht.spells hu hu0 ht.nodup
  · exact ordered_lift ht.ordered hu
  · exact hin
  · intro x hx y hy
    obtain rfl := List.mem_singleton.mp hy
    have hne : y ≠ root BLOCK_INVALID u := by
      rintro rfl
      apply hx
      have hru : root BLOCK_INVALID u ∈ inorder u := root_mem hu0
      rw [inorder_plug, inorder]
      rcases hu with rfl | rfl
      · simp [hru]
      · simp [hru]
    obtain ⟨-, hleft, hright⟩ :=
      setHole_frame (root BLOCK_INVALID u) hx y (List.mem_singleton_self y)
    exact ⟨Function.update_of_ne hne _ _, hleft, hright⟩

end

/-- Blocks that are not in the tree keep their links, when the lowest block to the right takes the
place of one with two children. -/
theorem splice_frame (hl : l ≠ .nil) {x : Block}
    (hx : x ∉ inorder (plug c (.node b l (plug d (.node m .nil (plug e .nil)))))) :
    SameOn (links s) (splice BLOCK_INVALID (links s) BLOCK_INVALID c b l d m e) [x] := by
  intro y hy
  obtain rfl := List.mem_singleton.mp hy
  have hmem : y ≠ b ∧ y ≠ m ∧ y ∉ inorder l ∧ y ∉ around d ∧ y ∉ around e := by
    have hx' := hx
    simp only [inorder_plug, inorder, List.mem_append, List.mem_cons] at hx'
    unfold around
    simp only [List.mem_append]
    grind
  obtain ⟨hyb, hym, hyl, hyd, hye⟩ := hmem
  obtain ⟨-, hleft, hright⟩ := @setHole_frame s _ _ _ _ m y hx y (List.mem_singleton_self y)
  have hroot : y ≠ root BLOCK_INVALID l := by
    rintro rfl
    exact hyl (root_mem hl)
  have hentry : d ≠ [] → y ≠ entry BLOCK_INVALID d := by
    rintro hd0 rfl
    exact hyd (entry_null_mem hd0)
  have htop : y ≠ top b d := by
    rintro rfl
    exact (top_mem b d).elim hyb hyd
  have htop' : y ≠ top m e := by
    rintro rfl
    exact (top_mem m e).elim hym hye
  exact ⟨splice_parent hym hroot hentry, (splice_left hym htop).trans hleft,
    (splice_right fun _ => htop').trans hright⟩

/-- With two children the lowest block to the right takes the place. -/
theorem delete_two {r : BinaryTree Block}
    (ht : PageTree s (s.phys b >>> 12) (plug c (.node b l r))) (hl : l ≠ .nil) (hr : r ≠ .nil) :
    ∃ s', codeblock_tree_delete b s = some s' ∧ Deleted s b (plug c (.node b l r)) s' := by
  have hn := ht.nodup
  obtain ⟨-, -, hlb, hrb, hsl, hsr⟩ := ((spells_plug _ _ _ _).mp ht.spells).1
  have hlb' : s.left b = root BLOCK_INVALID l := hlb
  have hrb' : s.right b = root BLOCK_INVALID r := hrb
  have hl0 : root BLOCK_INVALID l ≠ BLOCK_INVALID := hsl.ne_null (root_mem hl)
  have hr0 : root BLOCK_INVALID r ≠ BLOCK_INVALID := hsr.ne_null (root_mem hr)
  have hnr : (inorder r).Nodup := by
    rw [inorder_plug, inorder] at hn
    exact (List.nodup_cons.mp (List.nodup_append.mp
      (List.nodup_append.mp (List.nodup_append.mp hn).2.1).1).2.1).2
  obtain ⟨d, m, R, hd, hleft, hw⟩ := walk_left hsr hr (length_lt_fuel hnr)
  obtain ⟨e, he, hright⟩ := exists_last R
  subst he
  rw [← hrb'] at hw
  subst hd
  apply @deleted_of_links _ _ _ _ _ ht (.node m l (plug e (plug d .nil)))
    (splice BLOCK_INVALID (links s) BLOCK_INVALID c b l d m e)
  · unfold codeblock_tree_delete
    rw [hlb', if_neg (fun h => hl0 h.1), if_neg hl0, hrb', if_neg hr0,
      deleteTwo_eq hl hright ht.spells hn hw]
    rfl
  · exact spells_splice hl hleft hright ht.spells hn
  · exact ordered_splice hleft hright ht.ordered
  · simp only [inorder, inorder_plug, before_of_left hleft, after_of_right hright]
    simp
  · exact fun x => splice_frame hl

theorem delete_spec {s : TreeState} {b : Block} {t : BinaryTree Block}
    (ht : PageTree s (s.phys b >>> 12) t) (hb : b ∈ inorder t) :
    ∃ s', codeblock_tree_delete b s = some s' ∧ Deleted s b t s' := by
  obtain ⟨c, l, r, rfl⟩ := exists_path hb
  obtain ⟨-, -, hlb, hrb, hsl, hsr⟩ := ((spells_plug _ _ _ _).mp ht.spells).1
  have hlb' : s.left b = root BLOCK_INVALID l := hlb
  have hrb' : s.right b = root BLOCK_INVALID r := hrb
  by_cases hl : l = .nil
  · subst hl
    by_cases hr : r = .nil
    · subst hr
      exact delete_leaf ht
    · have hr0 : root BLOCK_INVALID r ≠ BLOCK_INVALID := hsr.ne_null (root_mem hr)
      apply delete_lift ht (Or.inr rfl) hr
      · unfold codeblock_tree_delete
        rw [root_nil] at hlb'
        rw [hrb', if_neg (fun h => hr0 h.2), if_pos hlb']
      · rfl
  · by_cases hr : r = .nil
    · subst hr
      have hl0 : root BLOCK_INVALID l ≠ BLOCK_INVALID := hsl.ne_null (root_mem hl)
      apply delete_lift ht (Or.inl rfl) hl
      · unfold codeblock_tree_delete
        rw [root_nil] at hrb'
        rw [hlb', if_neg (fun h => hl0 h.1), if_neg hl0, if_pos hrb']
      · exact (List.append_nil _).symm
    · exact delete_two ht hl hr

/-! ## Runs -/

/-- A change in one page leaves the trees of the others as they are. -/
theorem treesOk_of_change {s s' : TreeState} {page : BitVec 32} {live live' : Set Block}
    {t : BinaryTree Block} (h : TreesOk s live) (ht : PageTree s' page t)
    (hmem : ∀ x, x ∈ inorder t ↔ x ∈ live' ∧ s.phys x >>> 12 = page)
    (hsame : SameBlocks s s' page)
    (hlive : ∀ x, s.phys x >>> 12 ≠ page → (x ∈ live' ↔ x ∈ live))
    (hframe : ∀ l : List Block, (∀ x ∈ l, s.phys x >>> 12 ≠ page) →
      SameOn (links s) (links s') l) : TreesOk s' live' := by
  intro page'
  rw [hsame.phys]
  by_cases hp : page' = page
  · subst hp
    exact ⟨t, ht, hmem⟩
  · obtain ⟨u, hu, hul⟩ := h page'
    have hother : ∀ x ∈ inorder u, s.phys x >>> 12 ≠ page := by
      intro x hx
      rw [((hul x).mp hx).2]
      exact hp
    refine ⟨u, ⟨?_, ?_, hu.nodup, ?_⟩, ?_⟩
    · rw [hsame.head page' hp]
      exact hu.head
    · exact spells_congr (hframe _ hother) hu.spells
    · rw [hsame.key]
      exact hu.ordered
    · intro b
      rw [hul b]
      constructor
      · rintro ⟨hb, rfl⟩
        exact ⟨(hlive b hp).mpr hb, rfl⟩
      · rintro ⟨hb, rfl⟩
        exact ⟨(hlive b hp).mp hb, rfl⟩

theorem add_ok {s : TreeState} {live : Set Block} {b : Block} (h : TreesOk s live)
    (hb : b ≠ BLOCK_INVALID) (hn : b ∉ live) :
    ∃ s', codeblock_tree_add b s = some s' ∧ TreesOk s' (insert b live) := by
  obtain ⟨t, ht, hlive⟩ := h (s.phys b >>> 12)
  have hbt : b ∉ inorder t := fun hbt => hn ((hlive b).mp hbt).1
  obtain ⟨s', hs', ⟨t', ht', hmem⟩, hsame, hframe⟩ := add_spec ht hb hbt
  refine ⟨s', hs', treesOk_of_change h ht' ?_ hsame ?_ ?_⟩
  · intro x
    rw [hmem, hlive, Set.mem_insert_iff]
    constructor
    · rintro (rfl | hx)
      · exact ⟨Or.inl rfl, rfl⟩
      · exact ⟨Or.inr hx.1, hx.2⟩
    · rintro ⟨rfl | hx, hp⟩
      · exact Or.inl rfl
      · exact Or.inr ⟨hx, hp⟩
  · intro x hp
    rw [Set.mem_insert_iff]
    constructor
    · rintro (rfl | hx)
      · exact absurd rfl hp
      · exact hx
    · exact Or.inr
  · intro l hl
    apply hframe
    intro x hx
    refine ⟨?_, ?_⟩
    · rintro rfl
      exact hl x hx rfl
    · intro hxt
      exact hl x hx ((hlive x).mp hxt).2

theorem delete_ok {s : TreeState} {live : Set Block} {b : Block} (h : TreesOk s live)
    (hb : b ∈ live) :
    ∃ s', codeblock_tree_delete b s = some s' ∧ TreesOk s' (live \ {b}) := by
  obtain ⟨t, ht, hlive⟩ := h (s.phys b >>> 12)
  obtain ⟨s', hs', ⟨t', ht', hmem⟩, hsame, hframe⟩ := delete_spec ht ((hlive b).mpr ⟨hb, rfl⟩)
  refine ⟨s', hs', treesOk_of_change h ht' ?_ hsame ?_ ?_⟩
  · intro x
    rw [hmem, hlive, Set.mem_sdiff, Set.mem_singleton_iff]
    tauto
  · intro x hp
    rw [Set.mem_sdiff, Set.mem_singleton_iff]
    constructor
    · exact And.left
    · intro hx
      refine ⟨hx, ?_⟩
      rintro rfl
      exact hp rfl
  · intro l hl
    apply hframe
    intro x hx hxt
    exact hl x hx ((hlive x).mp hxt).2

/-- The key of a block that is in no tree does not matter. -/
theorem set_key_ok {s : TreeState} {live : Set Block} {b : Block} (phys _cs : BitVec 32)
    (h : TreesOk s live) (hn : b ∉ live) :
    TreesOk { s with
      phys := Function.update s.phys b phys
      _cs := Function.update s._cs b _cs } live := by
  intro page
  obtain ⟨t, ht, hlive⟩ := h page
  have hne : ∀ x, x ∈ live → x ≠ b := by
    rintro x hx rfl
    exact hn hx
  refine ⟨t, ⟨ht.head, ht.spells, ht.nodup, ordered_congr ?_ ht.ordered⟩, ?_⟩
  · intro x hx
    have hxb := hne x ((hlive x).mp hx).1
    unfold key block_cmp
    simp only [Function.update_of_ne hxb]
  · intro x
    rw [hlive]
    constructor
    · rintro ⟨hx, hp⟩
      exact ⟨hx, by simpa only [Function.update_of_ne (hne x hx)] using hp⟩
    · rintro ⟨hx, hp⟩
      exact ⟨hx, by simpa only [Function.update_of_ne (hne x hx)] using hp⟩

theorem reached_ok {s : TreeState} {live : Set Block} (h : Reached s live) : TreesOk s live := by
  induction h with
  | init s h =>
    intro page
    refine ⟨.nil, ⟨h page, trivial, List.nodup_nil, trivial⟩, ?_⟩
    intro b
    simp [inorder]
  | add b _ hb hn hs ih =>
    obtain ⟨s', hs', hok⟩ := add_ok ih hb hn
    rw [hs] at hs'
    obtain rfl := Option.some.inj hs'
    exact hok
  | delete b _ hb hs ih =>
    obtain ⟨s', hs', hok⟩ := delete_ok ih hb
    rw [hs] at hs'
    obtain rfl := Option.some.inj hs'
    exact hok
  | set_key b phys _cs _ hn ih => exact set_key_ok phys _cs ih hn
  | set_status b status _ ih =>
    intro page
    obtain ⟨t, ht, hlive⟩ := ih page
    exact ⟨t, ⟨ht.head, ht.spells, ht.nodup, ht.ordered⟩, hlive⟩

/-- Under any history the trees hold the blocks that are in them and no others, in
order, the search finds a block exactly when there is one, and each call ends. -/
theorem the_search_misses_no_block {s : TreeState} {live : Set Block} (h : Reached s live) :
    TreesOk s live ∧
    (∀ phys _cs cpu_cur_status, ∃ r, codeblock_tree_find phys _cs cpu_cur_status s = some r ∧
      (r ≠ BLOCK_INVALID → r ∈ live ∧ Matches s phys _cs cpu_cur_status r) ∧
      ((∃ b ∈ live, Matches s phys _cs cpu_cur_status b) → r ≠ BLOCK_INVALID)) ∧
    (∀ b, b ≠ BLOCK_INVALID → b ∉ live → (codeblock_tree_add b s).isSome) ∧
    ∀ b ∈ live, (codeblock_tree_delete b s).isSome := by
  have hok := reached_ok h
  refine ⟨hok, find_spec hok, ?_, ?_⟩
  · intro b hb hn
    obtain ⟨s', hs', -⟩ := add_ok hok hb hn
    rw [hs']
    rfl
  · intro b hb
    obtain ⟨s', hs', -⟩ := delete_ok hok hb
    rw [hs']
    rfl

/-- Blocks of one page, each at its own address. -/
def onePage : TreeState where
  phys := fun b => 0x1000 + b.setWidth 32
  _cs := fun _ => 0
  status := fun _ => 0
  parent := fun _ => 0
  left := fun _ => 0
  right := fun _ => 0
  head := fun _ => 0

/-- Block 4 goes while it has two children, and block 6, with block 7 below it, comes
up from below block 9. -/
theorem the_next_block_comes_up : ∃ s live, Reached s live ∧
    codeblock_tree_find 0x1006 0 0 s = some 6 ∧
    codeblock_tree_find 0x1004 0 0 s = some BLOCK_INVALID ∧ TreesOk s live ∧
    (∀ phys _cs cpu_cur_status, ∃ r, codeblock_tree_find phys _cs cpu_cur_status s = some r ∧
      (r ≠ BLOCK_INVALID → r ∈ live ∧ Matches s phys _cs cpu_cur_status r) ∧
      ((∃ b ∈ live, Matches s phys _cs cpu_cur_status b) → r ≠ BLOCK_INVALID)) ∧
    (∀ b, b ≠ BLOCK_INVALID → b ∉ live → (codeblock_tree_add b s).isSome) ∧
    ∀ b ∈ live, (codeblock_tree_delete b s).isSome := by
  have hrun : ((((((codeblock_tree_add 4 onePage).bind (codeblock_tree_add 2)).bind
      (codeblock_tree_add 9)).bind (codeblock_tree_add 6)).bind (codeblock_tree_add 7)).bind
      (codeblock_tree_delete 4)).map (fun s =>
        (codeblock_tree_find 0x1006 0 0 s, codeblock_tree_find 0x1004 0 0 s)) =
      some (some 6, some BLOCK_INVALID) := by
    decide +kernel
  simp only [Option.map_eq_some_iff, Option.bind_eq_some_iff, Prod.mk.injEq] at hrun
  obtain ⟨s, ⟨s7, ⟨s6, ⟨s9, ⟨s2, ⟨s4, h4, h2⟩, h9⟩, h6⟩, h7⟩, hdel⟩, hfind⟩ := hrun
  have r0 : Reached onePage ∅ := .init onePage fun _ => rfl
  have r4 := r0.add 4 (by decide) (by simp) h4
  have r2 := r4.add 2 (by decide) (by simp) h2
  have r9 := r2.add 9 (by decide) (by simp) h9
  have r6 := r9.add 6 (by decide) (by simp) h6
  have r7 := r6.add 7 (by decide) (by simp) h7
  have r := r7.delete 4 (by simp) hdel
  exact ⟨s, _, r, hfind.1, hfind.2, the_search_misses_no_block r⟩

end blumach.codeblock_tree
