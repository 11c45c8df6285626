-- How a tree with siblings side by side is built from its leaves: each node stands for the next
-- two that have no parent, and it goes behind all that are not heavier.
import BluMach.SiblingTree
import Mathlib

namespace sibling_tree

variable {m d i j k f : Nat} {w : Nat → Nat} {ns xs ys : List (Nat × Nat)} {t : Nodes}

def leaves (m : Nat) : List Nat := (List.range (m + 1)).map (2 * m + 1 + ·)

def firsts (d : Nat) : List Nat := (List.range d).map (2 * ·)

theorem mem_leaves {s : Nat} : s ∈ leaves m ↔ 2 * m + 1 ≤ s ∧ s ≤ 3 * m + 1 := by
  unfold leaves
  rw [List.mem_map]
  constructor
  · rintro ⟨c, hc, rfl⟩
    rw [List.mem_range] at hc
    omega
  · intro hs
    exact ⟨s - (2 * m + 1), List.mem_range.mpr (by omega), by omega⟩

theorem mem_firsts {s : Nat} : s ∈ firsts d ↔ ∃ e < d, 2 * e = s := by
  unfold firsts
  simp only [List.mem_map, List.mem_range]

/-! ## Lists of nodes -/

/-- The leaves, with the weights `w`, and the first `d` of the other nodes: a node is its weight
and its son. The nodes without a parent weigh as much as all leaves. -/
structure Built (m d : Nat) (w : Nat → Nat) (ns : List (Nat × Nat)) : Prop where
  sorted : ns.Pairwise fun a b => a.1 ≤ b.1
  pos : ∀ a ∈ ns, 0 < a.1
  sons : (ns.map Prod.snd).Perm (leaves m ++ firsts d)
  leaf : ∀ a ∈ ns, ∀ c, a.2 = 2 * m + 1 + c → a.1 = w c
  sum : ∀ i e f, ns[i]? = some (f, 2 * e) → e < d →
    2 * e + 1 < i ∧ ∃ a b, ns[2 * e]? = some a ∧ ns[2 * e + 1]? = some b ∧ f = a.1 + b.1
  total : ((ns.drop (2 * d)).map Prod.fst).sum = ((List.range (m + 1)).map w).sum

theorem Built.length (h : Built m d w ns) : ns.length = m + 1 + d := by
  have hlen := h.sons.length_eq
  simpa [leaves, firsts] using hlen

theorem Built.get_le (h : Built m d w ns) {a b : Nat × Nat} (hij : i ≤ j) (ha : ns[i]? = some a)
    (hb : ns[j]? = some b) : a.1 ≤ b.1 := by
  obtain ⟨hi, rfl⟩ := List.getElem?_eq_some_iff.mp ha
  obtain ⟨hj, rfl⟩ := List.getElem?_eq_some_iff.mp hb
  by_cases hsame : i = j
  · subst hsame
    exact Nat.le_refl _
  · exact List.pairwise_iff_getElem.mp h.sorted i j hi hj (by omega)

/-- The next two nodes without a parent. -/
theorem drop_two {a b : Nat × Nat} (ha : ns[i]? = some a) (hb : ns[i + 1]? = some b) :
    ns.drop i = a :: b :: ns.drop (i + 1 + 1) := by
  obtain ⟨hi, rfl⟩ := List.getElem?_eq_some_iff.mp ha
  obtain ⟨hi', rfl⟩ := List.getElem?_eq_some_iff.mp hb
  rw [List.drop_eq_getElem_cons hi, List.drop_eq_getElem_cons hi']

theorem Built.add_le (h : Built m d w ns) {a b : Nat × Nat} (ha : ns[2 * d]? = some a)
    (hb : ns[2 * d + 1]? = some b) : a.1 + b.1 ≤ ((List.range (m + 1)).map w).sum := by
  rw [← h.total, drop_two ha hb]
  simp only [List.map_cons, List.sum_cons]
  omega

/-- The next node. -/
theorem Built.insert (h : Built m d w (xs ++ ys)) (hd : d < m) {a b : Nat × Nat}
    (ha : (xs ++ ys)[2 * d]? = some a) (hb : (xs ++ ys)[2 * d + 1]? = some b)
    (hxs : ∀ x ∈ xs, x.1 ≤ a.1 + b.1) (hys : ∀ y ∈ ys, a.1 + b.1 < y.1) :
    Built m (d + 1) w (xs ++ (a.1 + b.1, 2 * d) :: ys) := by
  -- the two sons are in front of the place
  have hplace : 2 * d + 1 < xs.length := by
    by_contra hbehind
    rw [List.getElem?_append_right (Nat.le_of_not_lt hbehind)] at hb
    have hlarge := hys b (List.mem_of_getElem? hb)
    omega
  have hfront : ∀ i < xs.length,
      (xs ++ (a.1 + b.1, 2 * d) :: ys)[i]? = (xs ++ ys)[i]? := by
    intro i hi
    rw [List.getElem?_append_left hi, List.getElem?_append_left hi]
  have hapos := h.pos a (List.mem_of_getElem? ha)
  refine ⟨?_, ?_, ?_, ?_, ?_, ?_⟩
  · obtain ⟨hx, hy, hxy⟩ := List.pairwise_append.mp h.sorted
    refine List.pairwise_append.mpr ⟨hx, List.pairwise_cons.mpr ⟨fun y hmem => ?_, hy⟩,
      fun x hmem y hy' => ?_⟩
    · exact Nat.le_of_lt (hys y hmem)
    · rcases List.mem_cons.mp hy' with rfl | hy'
      · exact hxs x hmem
      · exact hxy x hmem y hy'
  · intro x hx
    rcases List.mem_append.mp hx with hx | hx
    · exact h.pos x (List.mem_append_left _ hx)
    · rcases List.mem_cons.mp hx with rfl | hx
      · exact Nat.add_pos_left hapos _
      · exact h.pos x (List.mem_append_right _ hx)
  · have hnext : firsts (d + 1) = firsts d ++ [2 * d] := by
      unfold firsts
      rw [List.range_succ, List.map_append]
      rfl
    rw [List.map_append, List.map_cons, hnext, ← List.append_assoc]
    refine List.perm_middle.trans ?_
    rw [← List.map_append]
    exact (h.sons.cons (2 * d)).trans (List.perm_append_singleton _ _).symm
  · intro x hx c hc
    rcases List.mem_append.mp hx with hx | hx
    · exact h.leaf x (List.mem_append_left _ hx) c hc
    · rcases List.mem_cons.mp hx with rfl | hx
      · simp only at hc
        omega
      · exact h.leaf x (List.mem_append_right _ hx) c hc
  · intro i e f hi he
    by_cases hlast : i = xs.length
    · -- the new node
      subst hlast
      rw [List.getElem?_append_right (Nat.le_refl _), Nat.sub_self] at hi
      obtain ⟨rfl, hson⟩ := Prod.mk.inj (Option.some.inj hi)
      obtain rfl : e = d := by omega
      exact ⟨hplace, a, b, by rw [hfront _ (by omega), ha], by rw [hfront _ hplace, hb], rfl⟩
    · have hed : e < d := by
        by_contra hnot
        obtain rfl : e = d := by omega
        have hmem : (f, 2 * e) ∈ xs ++ ys := by
          rw [List.getElem?_append] at hi
          split at hi
          · exact List.mem_append_left _ (List.mem_of_getElem? hi)
          · rw [List.getElem?_cons, if_neg (by omega)] at hi
            exact List.mem_append_right _ (List.mem_of_getElem? hi)
        have hsons := h.sons.mem_iff.mp (List.mem_map_of_mem (f := Prod.snd) hmem)
        rw [List.mem_append, mem_leaves, mem_firsts] at hsons
        simp only at hsons
        rcases hsons with hsons | ⟨e', he', hsons⟩ <;> omega
      have hold : ∃ i', (xs ++ ys)[i']? = some (f, 2 * e) ∧ i' ≤ i := by
        by_cases hlt : i < xs.length
        · exact ⟨i, by rw [← hfront i hlt, hi], Nat.le_refl _⟩
        · rw [List.getElem?_append_right (by omega), List.getElem?_cons, if_neg (by omega)] at hi
          refine ⟨i - 1, ?_, Nat.sub_le _ _⟩
          rw [List.getElem?_append_right (by omega), ← hi]
          congr 1
          omega
      obtain ⟨i', hi', hle⟩ := hold
      obtain ⟨hlt, a', b', ha', hb', hsum⟩ := h.sum i' e f hi' hed
      exact ⟨by omega, a', b', by rw [hfront _ (by omega), ha'], by rw [hfront _ (by omega), hb'],
        hsum⟩
  · rw [List.getElem?_append_left (by omega)] at ha
    rw [List.getElem?_append_left hplace] at hb
    have htotal := h.total
    rw [List.drop_append_of_le_length (by omega), drop_two ha hb] at htotal
    rw [← htotal, Nat.mul_add, Nat.mul_one, List.drop_append_of_le_length (by omega)]
    simp only [List.map_append, List.map_cons, List.sum_append, List.sum_cons, List.cons_append,
      show 2 * d + 1 + 1 = 2 * d + 2 from rfl]
    omega

/-- The root weighs as much as all leaves. -/
theorem Built.root (h : Built m m w ns) {a : Nat × Nat} (ha : ns[2 * m]? = some a) :
    a.1 = ((List.range (m + 1)).map w).sum := by
  obtain ⟨hlt, rfl⟩ := List.getElem?_eq_some_iff.mp ha
  have hlen := h.length
  rw [← h.total, List.drop_eq_getElem_cons hlt, List.drop_eq_nil_of_le (by omega)]
  simp

/-- The leaves alone. -/
theorem built_leaves (hsorted : ns.Pairwise fun a b => a.1 ≤ b.1) (hpos : ∀ a ∈ ns, 0 < a.1)
    (hsons : (ns.map Prod.snd).Perm (leaves m))
    (hleaf : ∀ a ∈ ns, ∀ c, a.2 = 2 * m + 1 + c → a.1 = w c) : Built m 0 w ns := by
  refine ⟨hsorted, hpos, by simpa [firsts] using hsons, hleaf, fun i e f _ he => by omega, ?_⟩
  have hfst : ns.map Prod.fst = (ns.map Prod.snd).map fun s => w (s - (2 * m + 1)) := by
    rw [List.map_map]
    refine List.map_congr_left fun a ha => ?_
    have hmem := hsons.mem_iff.mp (List.mem_map_of_mem (f := Prod.snd) ha)
    rw [mem_leaves] at hmem
    exact hleaf a ha _ (by omega)
  rw [Nat.mul_zero, List.drop_zero, hfst, (hsons.map _).sum_eq]
  unfold leaves
  rw [List.map_map]
  congr 1
  refine List.map_congr_left fun c _ => ?_
  simp

/-! ## Lists and arrays -/

/-- The first nodes of the arrays are those of a list. -/
def Shows (ns : List (Nat × Nat)) (t : Nodes) : Prop :=
  ∀ i a, ns[i]? = some a → t.freq i = a.1 ∧ t.son i = a.2

theorem Shows.get (h : Shows ns t) (hi : i < ns.length) : ns[i]? = some (t.freq i, t.son i) := by
  have hget := List.getElem?_eq_getElem hi
  obtain ⟨hfreq, hson⟩ := h i _ hget
  rw [hget, hfreq, hson]

/-- The node of a son. -/
theorem Shows.find (h : Shows ns t) {s : Nat} (hs : s ∈ ns.map Prod.snd) :
    ∃ i < ns.length, t.son i = s := by
  obtain ⟨a, ha, rfl⟩ := List.mem_map.mp hs
  obtain ⟨i, hi⟩ := List.mem_iff_getElem?.mp ha
  obtain ⟨hlt, -⟩ := List.getElem?_eq_some_iff.mp hi
  exact ⟨i, hlt, (h i a hi).2⟩

/-- Different nodes have different sons. -/
theorem Built.son_inj (h : Built m d w ns) (hs : Shows ns t) (hi : i < ns.length)
    (hj : j < ns.length) (heq : t.son i = t.son j) (hd : d ≤ m) : i = j := by
  have hnodup : (ns.map Prod.snd).Nodup := by
    rw [h.sons.nodup_iff, List.nodup_append]
    refine ⟨?_, ?_, ?_⟩
    · exact List.nodup_range.map fun a b hab => Nat.add_left_cancel hab
    · exact List.nodup_range.map fun a b hab => Nat.eq_of_mul_eq_mul_left (by decide) hab
    · intro a ha b hb heq
      rw [mem_leaves] at ha
      obtain ⟨e, he, rfl⟩ := mem_firsts.mp hb
      omega
  have hi' : i < (ns.map Prod.snd).length := by simpa using hi
  have hj' : j < (ns.map Prod.snd).length := by simpa using hj
  suffices hsame : (ns.map Prod.snd)[i] = (ns.map Prod.snd)[j] from hnodup.getElem_inj_iff.mp hsame
  have hgeti := hs.get hi
  have hgetj := hs.get hj
  rw [List.getElem?_eq_getElem hi, Option.some.injEq] at hgeti
  rw [List.getElem?_eq_getElem hj, Option.some.injEq] at hgetj
  rw [List.getElem_map, List.getElem_map, hgeti, hgetj, heq]

/-- A son is a leaf or the first of two siblings. -/
theorem Built.son_cases (h : Built m d w ns) (hs : Shows ns t) (hi : i < ns.length) :
    (2 * m + 1 ≤ t.son i ∧ t.son i ≤ 3 * m + 1) ∨ ∃ e < d, 2 * e = t.son i := by
  have hmem : t.son i ∈ ns.map Prod.snd :=
    List.mem_map.mpr ⟨_, List.mem_of_getElem? (hs.get hi), rfl⟩
  have hsons := h.sons.mem_iff.mp hmem
  rwa [List.mem_append, mem_leaves, mem_firsts] at hsons

/-- What one node has as sons, no other node has. -/
theorem Built.pair_inj (h : Built m d w ns) (hs : Shows ns t) (hd : d ≤ m) (hi : i < ns.length)
    (hj : j < ns.length) {x : Nat} (hx : Pair m (t.son i) x) (hx' : Pair m (t.son j) x) :
      i = j := by
  refine h.son_inj hs hi hj ?_ hd
  have hci := h.son_cases hs hi
  have hcj := h.son_cases hs hj
  unfold Pair at hx hx'
  rcases hci with hci | ⟨e, he, hci⟩ <;> rcases hcj with hcj | ⟨e', he', hcj⟩ <;> omega

/-- All nodes are built, and the parents are set: that is a tree. -/
theorem Built.tree (h : Built m m w ns) (hs : Shows ns t)
    (hdown : ∀ i ≤ 2 * m, ∀ x, Pair m (t.son i) x → t.prnt x = i) (hroot : t.prnt (2 * m) = 0) :
    Tree m t := by
  have hlen := h.length
  have hget : ∀ i ≤ 2 * m, ns[i]? = some (t.freq i, t.son i) := fun i hi => hs.get (by omega)
  have hmem : ∀ s, s ∈ leaves m ++ firsts m → ∃ i ≤ 2 * m, t.son i = s := by
    intro s hsmem
    obtain ⟨i, hi, hson⟩ := hs.find (h.sons.mem_iff.mpr hsmem)
    exact ⟨i, by omega, hson⟩
  have hsum : ∀ i ≤ 2 * m, t.son i ≤ 2 * m → t.son i + 1 < i ∧
      t.freq i = t.freq (t.son i) + t.freq (t.son i + 1) := by
    intro i hi hson
    rcases h.son_cases hs (i := i) (by omega) with hleaf | ⟨e, he, heq⟩
    · omega
    · have hnode := hget i hi
      rw [← heq] at hnode ⊢
      obtain ⟨hlt, a, b, ha, hb, hf⟩ := h.sum i e _ hnode he
      rw [(hs _ a ha).1, (hs _ b hb).1]
      exact ⟨hlt, hf⟩
  refine ⟨⟨fun i hi => ?_, fun i hi hson => (hsum i hi hson).1, hdown, fun x hx hxroot => ?_,
    hroot⟩, ⟨fun i hi => ?_, fun i j hij hj => ?_, fun i hi hson => (hsum i hi hson).2⟩⟩
  · rcases h.son_cases hs (i := i) (by omega) with hleaf | ⟨e, he, heq⟩ <;> omega
  · have hnode : ∃ i ≤ 2 * m, Pair m (t.son i) x := by
      by_cases hleaf : 2 * m + 1 ≤ x
      · obtain ⟨i, hi, rfl⟩ := hmem x (List.mem_append_left _ (mem_leaves.mpr ⟨hleaf, hx⟩))
        exact ⟨i, hi, .inl rfl⟩
      · obtain ⟨i, hi, hson⟩ := hmem (2 * (x / 2))
          (List.mem_append_right _ (mem_firsts.mpr ⟨x / 2, by omega, rfl⟩))
        refine ⟨i, hi, ?_⟩
        unfold Pair
        omega
    obtain ⟨i, hi, hpair⟩ := hnode
    rw [hdown i hi x hpair]
    exact ⟨hi, hpair⟩
  · exact h.pos _ (List.mem_of_getElem? (hget i hi))
  · exact h.get_le hij (hget i (by omega)) (hget j hj)

/-- The weight of a leaf is the one it had at the start. -/
theorem Built.weight (h : Built m m w ns) (hs : Shows ns t) (ht : Tree m t) {c : Nat} (hc : c ≤ m) :
    weight m t c = w c := by
  have hlen := h.length
  obtain ⟨hle, hson⟩ := ht.links.prnt_leaf hc
  exact h.leaf _ (List.mem_of_getElem? (hs.get (by omega))) c hson

end sibling_tree
