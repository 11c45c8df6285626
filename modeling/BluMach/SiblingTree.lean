-- Binary trees in arrays, for codes that change with the text: the nodes stand in the order of
-- their weights, and siblings side by side. A weight grows by one along the way to the root, and
-- before it does, the node changes places with the last one of its weight.
import Mathlib.Algebra.BigOperators.Group.Finset.Basic
import Mathlib.Algebra.BigOperators.Group.Finset.Sigma
import Mathlib.Algebra.Order.BigOperators.Group.Finset

namespace sibling_tree

/-- The nodes are `0` up to `2 * m`, which is the root. A son that is a node is the first of two
siblings, and a son above is one of the `m + 1` leaves. -/
structure Nodes where
  freq : Nat → Nat
  son : Nat → Nat
  prnt : Nat → Nat

variable {m : Nat} {t : Nodes} {c i j k l p s x : Nat}

/-! ## Links -/

/-- What a son stands for: a leaf, or two siblings. -/
def Pair (m s x : Nat) : Prop := x = s ∨ s ≤ 2 * m ∧ x = s + 1

instance (m s x : Nat) : Decidable (Pair m s x) := inferInstanceAs (Decidable (_ ∨ _))

/-- Sons and parents go together, and a son that is a node comes before its parent. -/
structure Links (m : Nat) (t : Nodes) : Prop where
  bound : ∀ i ≤ 2 * m, t.son i ≤ 3 * m + 1
  below : ∀ i ≤ 2 * m, t.son i ≤ 2 * m → t.son i + 1 < i
  down : ∀ i ≤ 2 * m, ∀ x, Pair m (t.son i) x → t.prnt x = i
  up : ∀ x ≤ 3 * m + 1, x ≠ 2 * m → t.prnt x ≤ 2 * m ∧ Pair m (t.son (t.prnt x)) x
  root : t.prnt (2 * m) = 0

theorem Links.lt_of_pair (h : Links m t) (hi : i ≤ 2 * m) (hx : Pair m (t.son i) x)
    (hnode : x ≤ 2 * m) : x < i := by
  have hbelow := h.below i hi
  rcases hx with rfl | ⟨-, rfl⟩
  · exact Nat.lt_of_succ_lt (hbelow hnode)
  · exact hbelow (by omega)

/-- A parent comes behind its sons. -/
theorem Links.lt_prnt (h : Links m t) (hx : x < 2 * m) : x < t.prnt x ∧ t.prnt x ≤ 2 * m := by
  obtain ⟨hle, hpair⟩ := h.up x (by omega) (by omega)
  exact ⟨h.lt_of_pair hle hpair (by omega), hle⟩

/-- The parent of a node has nodes as sons. -/
theorem Links.son_prnt (h : Links m t) (hx : x < 2 * m) : t.son (t.prnt x) ≤ 2 * m := by
  obtain ⟨-, hpair⟩ := h.up x (by omega) (by omega)
  rcases hpair with hpair | ⟨hpair, -⟩
  · omega
  · exact hpair

theorem Links.prnt_leaf (h : Links m t) (hc : c ≤ m) :
    t.prnt (2 * m + 1 + c) ≤ 2 * m ∧ t.son (t.prnt (2 * m + 1 + c)) = 2 * m + 1 + c := by
  obtain ⟨hle, hpair⟩ := h.up (2 * m + 1 + c) (by omega) (by omega)
  refine ⟨hle, ?_⟩
  rcases hpair with hpair | ⟨hson, hpair⟩
  · exact hpair.symm
  · have hbelow := h.below _ hle hson
    omega

/-! ## Weights -/

/-- The weight of a node is that of its sons together, where nothing is owed. -/
structure Weighs (m : Nat) (owed : Nat → Nat) (t : Nodes) : Prop where
  pos : ∀ i ≤ 2 * m, 0 < t.freq i
  sorted : ∀ i j, i ≤ j → j ≤ 2 * m → t.freq i ≤ t.freq j
  sum : ∀ i ≤ 2 * m, t.son i ≤ 2 * m → t.freq i + owed i = t.freq (t.son i) + t.freq (t.son i + 1)

/-- One node lacks one. -/
def one (c i : Nat) : Nat := if i = c then 1 else 0

theorem one_self : one c c = 1 := if_pos rfl

theorem one_of_ne (h : i ≠ c) : one c i = 0 := if_neg h

/-- The weight of a leaf is that of its node. -/
def weight (m : Nat) (t : Nodes) (c : Nat) : Nat := t.freq (t.prnt (2 * m + 1 + c))

/-! ## Two nodes change places -/

def adopt (m : Nat) (prnt : Nat → Nat) (s p : Nat) : Nat → Nat :=
  if s ≤ 2 * m then Function.update (Function.update prnt s p) (s + 1) p
  else Function.update prnt s p

theorem adopt_apply (prnt : Nat → Nat) :
    adopt m prnt s p x = if Pair m s x then p else prnt x := by
  unfold adopt
  by_cases hnode : s ≤ 2 * m
  · rw [if_pos hnode]
    by_cases hsecond : x = s + 1
    · rw [hsecond, Function.update_self, if_pos (.inr ⟨hnode, rfl⟩)]
    · rw [Function.update_of_ne hsecond]
      by_cases hfirst : x = s
      · rw [hfirst, Function.update_self, if_pos (.inl rfl)]
      · rw [Function.update_of_ne hfirst, if_neg (by unfold Pair; omega)]
  · rw [if_neg hnode]
    by_cases hfirst : x = s
    · rw [hfirst, Function.update_self, if_pos (.inl rfl)]
    · rw [Function.update_of_ne hfirst, if_neg (by unfold Pair; omega)]

def swap (m : Nat) (t : Nodes) (c l : Nat) : Nodes :=
  { t with
    son := Function.update (Function.update t.son l (t.son c)) c (t.son l)
    prnt := adopt m (adopt m t.prnt (t.son c) l) (t.son l) c }

theorem swap_son_left : (swap m t c l).son c = t.son l := Function.update_self ..

theorem swap_son_right (h : c ≠ l) : (swap m t c l).son l = t.son c :=
  (Function.update_of_ne h.symm _ _).trans (Function.update_self ..)

theorem swap_son_of_ne (hc : i ≠ c) (hl : i ≠ l) : (swap m t c l).son i = t.son i :=
  (Function.update_of_ne hc _ _).trans (Function.update_of_ne hl _ _)

theorem swap_prnt : (swap m t c l).prnt x =
    if Pair m (t.son l) x then c else if Pair m (t.son c) x then l else t.prnt x := by
  change adopt m (adopt m t.prnt (t.son c) l) (t.son l) c x = _
  rw [adopt_apply, adopt_apply]

theorem Links.swap (h : Links m t) (hcl : c < l) (hl : l ≤ 2 * m)
    (hson : t.son l ≤ 2 * m → t.son l + 1 < c) : Links m (swap m t c l) := by
  have hne : c ≠ l := Nat.ne_of_lt hcl
  have hc : c ≤ 2 * m := by omega
  -- what stands at a node after the change
  have hcases : ∀ i, i = c ∨ i = l ∨ i ≠ c ∧ i ≠ l := by
    intro i
    omega
  have hroot : ∀ i ≤ 2 * m, ¬Pair m (t.son i) (2 * m) := by
    intro i hi hpair
    have hlt := h.lt_of_pair hi hpair (Nat.le_refl _)
    omega
  constructor
  · intro i hi
    obtain rfl | rfl | ⟨h₁, h₂⟩ := hcases i
    · rw [swap_son_left]
      exact h.bound l hl
    · rw [swap_son_right hne]
      exact h.bound c hc
    · rw [swap_son_of_ne h₁ h₂]
      exact h.bound i hi
  · intro i hi
    obtain rfl | rfl | ⟨h₁, h₂⟩ := hcases i
    · rw [swap_son_left]
      exact hson
    · rw [swap_son_right hne]
      intro hnode
      exact Nat.lt_trans (h.below c hc hnode) hcl
    · rw [swap_son_of_ne h₁ h₂]
      exact h.below i hi
  · intro i hi x hpair
    rw [swap_prnt]
    obtain rfl | rfl | ⟨h₁, h₂⟩ := hcases i
    · rw [swap_son_left] at hpair
      rw [if_pos hpair]
    · rw [swap_son_right hne] at hpair
      have hfrom := h.down c hc x hpair
      rw [if_neg fun hother => hne (hfrom.symm.trans (h.down _ hl x hother)), if_pos hpair]
    · rw [swap_son_of_ne h₁ h₂] at hpair
      have hfrom := h.down i hi x hpair
      rw [if_neg fun hother => h₂ (hfrom.symm.trans (h.down _ hl x hother)),
        if_neg fun hother => h₁ (hfrom.symm.trans (h.down _ hc x hother))]
      exact hfrom
  · intro x hx hxroot
    obtain ⟨hle, hpair⟩ := h.up x hx hxroot
    rw [swap_prnt]
    split
    · rw [swap_son_left]
      exact ⟨hc, ‹_›⟩
    · rename_i hnotl
      split
      · rw [swap_son_right hne]
        exact ⟨hl, ‹_›⟩
      · rename_i hnotc
        have hnec : t.prnt x ≠ c := fun heq => hnotc (by rwa [heq] at hpair)
        have hnel : t.prnt x ≠ l := fun heq => hnotl (by rwa [heq] at hpair)
        rw [swap_son_of_ne hnec hnel]
        exact ⟨hle, hpair⟩
  · rw [swap_prnt, if_neg (hroot l hl), if_neg (hroot c hc)]
    exact h.root

/-- Nodes of the same weight change places with their debts. -/
theorem Weighs.swap (h : Weighs m (one c) t) (hcl : c ≠ l) (hc : c ≤ 2 * m) (hl : l ≤ 2 * m)
    (hfreq : t.freq c = t.freq l) : Weighs m (one l) (swap m t c l) := by
  refine ⟨h.pos, h.sorted, fun i hi => ?_⟩
  by_cases hic : i = c
  · subst hic
    rw [swap_son_left, one_of_ne hcl]
    intro hson
    have hsum := h.sum l hl hson
    rw [one_of_ne hcl.symm, ← hfreq] at hsum
    exact hsum
  · by_cases hil : i = l
    · subst hil
      rw [swap_son_right hcl, one_self]
      intro hson
      have hsum := h.sum c hc hson
      rw [one_self, hfreq] at hsum
      exact hsum
    · rw [swap_son_of_ne hic hil, one_of_ne hil]
      intro hson
      have hsum := h.sum i hi hson
      rwa [one_of_ne hic] at hsum

theorem weight_swap (h : Links m t) (hc : c ≤ 2 * m) (hl : l ≤ 2 * m)
    (hfreq : t.freq c = t.freq l) : weight m (swap m t c l) k = weight m t k := by
  unfold weight
  rw [swap_prnt]
  have hsame : (swap m t c l).freq = t.freq := rfl
  rw [hsame]
  split
  · rename_i hpair
    rw [h.down l hl _ hpair, hfreq]
  · split
    · rename_i hpair
      rw [h.down c hc _ hpair, hfreq]
    · rfl

/-! ## A weight grows -/

def bump (t : Nodes) (l : Nat) : Nodes :=
  { t with freq := Function.update t.freq l (t.freq l + 1) }

theorem bump_freq : (bump t l).freq i = t.freq i + one l i := by
  change Function.update t.freq l (t.freq l + 1) i = _
  by_cases h : i = l
  · rw [h, Function.update_self, one_self]
  · rw [Function.update_of_ne h, one_of_ne h]
    rfl

theorem Links.bump (h : Links m t) (l : Nat) : Links m (bump t l) :=
  ⟨h.bound, h.below, h.down, h.up, h.root⟩

/-- The last node of a weight may grow. -/
theorem sorted_bump (h : Weighs m (one l) t) (hlast : l < 2 * m → t.freq l < t.freq (l + 1))
    (hij : i ≤ j) (hj : j ≤ 2 * m) : (bump t l).freq i ≤ (bump t l).freq j := by
  rw [bump_freq, bump_freq]
  have hsort := h.sorted i j hij hj
  by_cases hil : i = l
  · subst hil
    rw [one_self]
    by_cases hjl : j = i
    · rw [hjl, one_self]
    · have hnext := h.sorted (i + 1) j (by omega) hj
      have hgrows := hlast (by omega)
      omega
  · rw [one_of_ne hil]
    omega

/-- The debt goes to the parent. -/
theorem Weighs.bump (h : Weighs m (one l) t) (hlinks : Links m t) (hl : l < 2 * m)
    (hlast : t.freq l < t.freq (l + 1)) : Weighs m (one (t.prnt l)) (bump t l) := by
  have hparent := hlinks.lt_prnt hl
  refine ⟨fun i hi => ?_, fun i j => sorted_bump h fun _ => hlast, fun i hi hson => ?_⟩
  · rw [bump_freq]
    exact Nat.add_pos_left (h.pos i hi) _
  · rw [bump_freq, bump_freq, bump_freq]
    have hbelow := hlinks.below i hi hson
    have hsum := h.sum i hi hson
    change t.freq i + one l i + one (t.prnt l) i =
      t.freq (t.son i) + one l (t.son i) + (t.freq (t.son i + 1) + one l (t.son i + 1))
    have hkids : one (t.prnt l) i = one l (t.son i) + one l (t.son i + 1) := by
      by_cases hi' : i = t.prnt l
      · subst hi'
        obtain ⟨-, hpair⟩ := hlinks.up l (by omega) (by omega)
        rw [one_self]
        rcases hpair with hpair | ⟨-, hpair⟩
        · rw [← hpair, one_self, one_of_ne (by omega)]
        · rw [← hpair, one_self, one_of_ne (by omega)]
      · rw [one_of_ne hi', one_of_ne fun heq => hi' (hlinks.down i hi l (.inl heq.symm)).symm,
          one_of_ne fun heq => hi' (hlinks.down i hi l (.inr ⟨hson, heq.symm⟩)).symm]
    omega

/-- At the root nothing is owed any more. -/
theorem Weighs.bump_at_root (h : Weighs m (one (2 * m)) t) (hlinks : Links m t) :
    Weighs m (fun _ => 0) (sibling_tree.bump t (2 * m)) := by
  refine ⟨fun i hi => ?_, fun i j => sorted_bump h fun hlt => absurd hlt (Nat.lt_irrefl _),
    fun i hi hson => ?_⟩
  · rw [bump_freq]
    exact Nat.add_pos_left (h.pos i hi) _
  · have hbelow := hlinks.below i hi hson
    have hsum := h.sum i hi hson
    rw [bump_freq, bump_freq, bump_freq]
    change t.freq i + one (2 * m) i + 0 = t.freq (t.son i) + one (2 * m) (t.son i) +
      (t.freq (t.son i + 1) + one (2 * m) (t.son i + 1))
    rw [one_of_ne (c := 2 * m) (i := t.son i) (by omega),
      one_of_ne (c := 2 * m) (i := t.son i + 1) (by omega)]
    omega

theorem weight_bump : weight m (bump t l) c = weight m t c + one l (t.prnt (2 * m + 1 + c)) :=
  bump_freq

/-! ## One step to the root -/

/-- All is in order but for a debt of one at a node. -/
structure Climbing (m : Nat) (t : Nodes) (c : Nat) : Prop where
  links : Links m t
  weighs : Weighs m (one c) t
  le : c ≤ 2 * m

/-- The last node that weighs as much as a node. -/
structure Last (m : Nat) (t : Nodes) (c l : Nat) : Prop where
  le : c ≤ l
  le_root : l ≤ 2 * m
  same : t.freq c = t.freq l
  last : l < 2 * m → t.freq l < t.freq (l + 1)

def passOn (m : Nat) (t : Nodes) (c l : Nat) : Nodes :=
  bump (if c = l then t else swap m t c l) l

/-- The debt is where the node went. -/
theorem Climbing.moved (h : Climbing m t c) (hl : Last m t c l) :
    Climbing m (if c = l then t else swap m t c l) l := by
  have hle := hl.le
  by_cases hsame : c = l
  · rw [if_pos hsame, ← hsame]
    exact h
  · rw [if_neg hsame]
    refine ⟨h.links.swap (by omega) hl.le_root fun hson => ?_,
      h.weighs.swap hsame h.le hl.le_root hl.same, hl.le_root⟩
    have hsum := h.weighs.sum l hl.le_root hson
    have hbelow := h.links.below l hl.le_root hson
    rw [one_of_ne (Ne.symm hsame)] at hsum
    have hpos := h.weighs.pos (t.son l) (by omega)
    have hfreq := hl.same
    have hroot := hl.le_root
    by_contra hbehind
    have hsort := h.weighs.sorted c (t.son l + 1) (by omega) (by omega)
    omega

theorem moved_son : (if c = l then t else swap m t c l).son l = t.son c := by
  split
  · rename_i hsame
    rw [hsame]
  · exact swap_son_right ‹_›

theorem moved_freq : (if c = l then t else swap m t c l).freq = t.freq := by
  split <;> rfl

theorem moved_weight (h : Climbing m t c) (hl : Last m t c l) :
    weight m (if c = l then t else swap m t c l) k = weight m t k := by
  split
  · rfl
  · exact weight_swap h.links h.le hl.le_root hl.same

theorem Climbing.passOn (h : Climbing m t c) (hl : Last m t c l) (hroot : l < 2 * m) :
    Climbing m (passOn m t c l) ((passOn m t c l).prnt l) := by
  have hmoved := h.moved hl
  have hparent := hmoved.links.lt_prnt hroot
  refine ⟨hmoved.links.bump l, hmoved.weighs.bump hmoved.links hroot ?_, hparent.2⟩
  rw [moved_freq]
  exact hl.last hroot

theorem Climbing.passOn_lt (h : Climbing m t c) (hl : Last m t c l) (hroot : l < 2 * m) :
    l < (sibling_tree.passOn m t c l).prnt l :=
  ((h.moved hl).links.lt_prnt hroot).1

/-- A tree in which nothing is owed. -/
structure Tree (m : Nat) (t : Nodes) : Prop where
  links : Links m t
  weighs : Weighs m (fun _ => 0) t

theorem Climbing.passOn_root (h : Climbing m t c) (hl : Last m t c (2 * m)) :
    Tree m (sibling_tree.passOn m t c (2 * m)) :=
  ⟨(h.moved hl).links.bump _, (h.moved hl).weighs.bump_at_root (h.moved hl).links⟩

theorem passOn_freq_root (m : Nat) (t : Nodes) (c l : Nat) :
    (passOn m t c l).freq (2 * m) = t.freq (2 * m) + one l (2 * m) := by
  unfold passOn
  rw [bump_freq, moved_freq]

/-- Only a leaf that stood at the node grows. -/
theorem passOn_weight (h : Climbing m t c) (hl : Last m t c l) (hk : k ≤ m) :
    weight m (passOn m t c l) k = weight m t k + one (t.son c) (2 * m + 1 + k) := by
  unfold passOn
  rw [weight_bump, moved_weight h hl]
  have hlinks := (h.moved hl).links
  have hleaf := hlinks.prnt_leaf hk
  congr 1
  by_cases hstands : t.son c = 2 * m + 1 + k
  · have hparent := hlinks.down l hl.le_root (2 * m + 1 + k)
      (.inl (by rw [moved_son, hstands]))
    rw [hparent, hstands, one_self, one_self]
  · rw [one_of_ne (Ne.symm hstands), one_of_ne]
    intro heq
    have hson := hleaf.2
    rw [heq, moved_son] at hson
    exact hstands hson

/-! ## The weights of the leaves -/

open Finset in
/-- The weights of the sons of all nodes. -/
theorem sum_sons (hl : Links m t) (f : Nat → Nat) :
    ∑ i ∈ range (2 * m + 1) with t.son i ≤ 2 * m, (f (t.son i) + f (t.son i + 1)) =
      ∑ k ∈ range (2 * m), f k := by
  have hmaps : ∀ k ∈ range (2 * m), t.prnt k ∈ {i ∈ range (2 * m + 1) | t.son i ≤ 2 * m} := by
    intro k hk
    rw [mem_range] at hk
    rw [mem_filter, mem_range]
    exact ⟨Nat.lt_succ_of_le (hl.lt_prnt hk).2, hl.son_prnt hk⟩
  rw [← sum_fiberwise_of_maps_to hmaps]
  refine sum_congr rfl fun i hi => ?_
  rw [mem_filter, mem_range] at hi
  have hbelow := hl.below i (by omega) hi.2
  have hpair : {k ∈ range (2 * m) | t.prnt k = i} = {t.son i, t.son i + 1} := by
    ext k
    rw [mem_filter, mem_range, mem_insert, mem_singleton]
    constructor
    · rintro ⟨hk, rfl⟩
      rcases (hl.up k (by omega) (by omega)).2 with heq | ⟨-, heq⟩
      · exact .inl heq
      · exact .inr heq
    · rintro (rfl | rfl)
      · exact ⟨by omega, hl.down i (by omega) _ (.inl rfl)⟩
      · exact ⟨by omega, hl.down i (by omega) _ (.inr ⟨hi.2, rfl⟩)⟩
  rw [hpair, sum_pair (by omega)]

open Finset in
/-- The root weighs as much as all leaves. -/
theorem Tree.sum_weight (h : Tree m t) : ∑ c ∈ range (m + 1), weight m t c = t.freq (2 * m) := by
  have hinner : ∑ i ∈ range (2 * m + 1) with t.son i ≤ 2 * m, t.freq i =
      ∑ k ∈ range (2 * m), t.freq k := by
    rw [← sum_sons h.links]
    refine sum_congr rfl fun i hi => ?_
    rw [mem_filter, mem_range] at hi
    exact h.weighs.sum i (by omega) hi.2
  have hleaf : ∑ c ∈ range (m + 1), weight m t c =
      ∑ i ∈ range (2 * m + 1) with ¬t.son i ≤ 2 * m, t.freq i := by
    refine sum_nbij' (fun c => t.prnt (2 * m + 1 + c)) (fun i => t.son i - (2 * m + 1)) ?_ ?_ ?_ ?_
      fun c _ => rfl
    · intro c hc
      rw [mem_range] at hc
      obtain ⟨hle, hson⟩ := h.links.prnt_leaf (c := c) (by omega)
      rw [mem_filter, mem_range, hson]
      omega
    · intro i hi
      rw [mem_filter, mem_range] at hi
      have hbound := h.links.bound i (by omega)
      rw [mem_range]
      omega
    · intro c hc
      rw [mem_range] at hc
      rw [(h.links.prnt_leaf (c := c) (by omega)).2]
      omega
    · intro i hi
      rw [mem_filter, mem_range] at hi
      refine h.links.down i (by omega) _ (.inl ?_)
      omega
  have hall := sum_filter_add_sum_filter_not (range (2 * m + 1)) (fun i => t.son i ≤ 2 * m) t.freq
  rw [sum_range_succ, hinner] at hall
  rw [hleaf]
  omega

/-! ## Codes -/

/-- The way from the root to a node. -/
inductive Reach (m : Nat) (t : Nodes) : Nat → List Bool → Prop
  | root : Reach m t (2 * m) []
  | step {i : Nat} {bs : List Bool} (b : Bool) (h : Reach m t i bs) (hson : t.son i ≤ 2 * m) :
      Reach m t (t.son i + b.toNat) (bs ++ [b])

theorem Reach.le {bs : List Bool} (hl : Links m t) (h : Reach m t i bs) : i ≤ 2 * m := by
  induction h with
  | root => exact Nat.le_refl _
  | step b h hson ih =>
    have hbelow := hl.below _ ih hson
    have hb := b.toNat_le
    omega

theorem pair_bit (b : Bool) (hson : t.son i ≤ 2 * m) : Pair m (t.son i) (t.son i + b.toNat) := by
  cases b with
  | false => exact .inl rfl
  | true => exact .inr ⟨hson, rfl⟩

/-- There is one way only. -/
theorem Reach.unique {bs bs' : List Bool} (hl : Links m t) (h : Reach m t i bs)
    (h' : Reach m t i bs') : bs = bs' := by
  induction h generalizing bs' with
  | root =>
    generalize hroot : 2 * m = r at h'
    cases h' with
    | root => rfl
    | step b h hson =>
      have hbelow := hl.below _ (h.le hl) hson
      have hle := h.le hl
      have hb := b.toNat_le
      omega
  | @step i bs b h hson ih =>
    generalize hx : t.son i + b.toNat = x at h'
    have hdown : t.prnt x = i := by
      rw [← hx]
      exact hl.down i (h.le hl) _ (pair_bit b hson)
    cases h' with
    | root =>
      have hbelow := hl.below _ (h.le hl) hson
      have hle := h.le hl
      have hb := b.toNat_le
      omega
    | @step i' bs' b' h' hson' =>
      have hdown' := hl.down i' (h'.le hl) _ (pair_bit b' hson')
      obtain rfl : i' = i := hdown'.symm.trans hdown
      obtain rfl := ih h'
      have hbit : b'.toNat = b.toNat := by omega
      have hsame : b' = b := by
        cases b <;> cases b' <;> simp_all
      rw [hsame]

/-- Each node has a way to it. -/
theorem Links.reach (hl : Links m t) (hi : i ≤ 2 * m) : ∃ bs, Reach m t i bs := by
  induction hk : 2 * m - i using Nat.strongRecOn generalizing i with
  | ind k ih =>
    by_cases hroot : i = 2 * m
    · rw [hroot]
      exact ⟨[], .root⟩
    · obtain ⟨hlt, hle⟩ := hl.lt_prnt (x := i) (by omega)
      have hson := hl.son_prnt (x := i) (by omega)
      obtain ⟨bs, hbs⟩ := ih (2 * m - t.prnt i) (by omega) hle rfl
      rcases (hl.up i (by omega) hroot).2 with hfirst | ⟨-, hsecond⟩
      · have hstep := Reach.step false hbs hson
        rw [Bool.toNat_false, Nat.add_zero, ← hfirst] at hstep
        exact ⟨_, hstep⟩
      · have hstep := Reach.step true hbs hson
        rw [Bool.toNat_true, ← hsecond] at hstep
        exact ⟨_, hstep⟩

end sibling_tree
