-- The tree of the TeleDisk decoder: after any characters it is a tree in the order of its
-- frequencies, and each leaf has as many as its character was seen, but for the halvings.
import BluMach.SiblingBuild
import BluMach.Td0

namespace blumach.td0

open sibling_tree

theorem N_CHAR_eq : N_CHAR = 313 + 1 := rfl

theorem T_eq : T = 2 * 313 + 1 := rfl

theorem R_eq : R = 2 * 313 := rfl

/-- The tree, with the mark behind its root. -/
structure Ready (t : Nodes) : Prop where
  tree : Tree 313 t
  mark : t.freq T = 0xffff
  root : t.freq R ≤ MAX_FREQ

variable {t : Nodes} {c i j k l : Nat}

/-! ## The way to the root -/

theorem scan_spec (freq : Nat → Nat) (k l : Nat) (hl : l < T) (hk : k ≤ freq T) :
    ∃ l', scan freq k l = some l' ∧ l < l' ∧ l' ≤ T ∧ k ≤ freq l' ∧
      ∀ x, l < x → x < l' → freq x < k := by
  induction l using scan.induct freq k with
  | case1 l hout => omega
  | case2 l hin hmore ih =>
    have hne : l + 1 ≠ T := by
      intro heq
      rw [heq] at hmore
      omega
    obtain ⟨l', hscan, hlt, hle, hstop, hall⟩ := ih (by omega)
    rw [scan, if_neg hin, if_pos hmore]
    refine ⟨l', hscan, by omega, hle, hstop, fun x hx hx' => ?_⟩
    by_cases hnext : x = l + 1
    · rw [hnext]
      exact hmore
    · exact hall x (by omega) hx'
  | case3 l hin hstop =>
    rw [scan, if_neg hin, if_neg hstop]
    exact ⟨l + 1, rfl, by omega, by omega, by omega, fun x hx hx' => by omega⟩

/-- The places that the code exchanges are those of `swap`, and then one of the weights grows. -/
theorem swapNodes_eq (hcl : c ≠ l) (hfreq : t.freq c = t.freq l) :
    swapNodes c l (t.freq c + 1) { t with freq := Function.update t.freq c (t.freq c + 1) } =
      passOn 313 t c l := by
  have hfreqs : Function.update (Function.update (Function.update t.freq c (t.freq c + 1)) c
      (Function.update t.freq c (t.freq c + 1) l)) l (t.freq c + 1) =
      Function.update t.freq l (t.freq l + 1) := by
    rw [Function.update_of_ne hcl.symm, Function.update_idem, ← hfreq, Function.update_eq_self]
  have hparents : ∀ (prnt : Nat → Nat) (s p : Nat),
      (if s < T then Function.update (Function.update prnt s p) (s + 1) p
        else Function.update prnt s p) = adopt 313 prnt s p := by
    intro prnt s p
    unfold adopt
    simp only [T_eq, Nat.lt_succ_iff]
  unfold swapNodes passOn
  rw [if_neg hcl]
  simp only [hfreqs, hparents]
  rfl

/-- What the loop keeps. -/
structure Climbs (t : Nodes) (c : Nat) : Prop where
  climbing : Climbing 313 t c
  mark : t.freq T = 0xffff
  root : t.freq R < MAX_FREQ

theorem growNode_spec (h : Climbs t c) :
    ∃ l, growNode t c = some (passOn 313 t c l, l) ∧ Last 313 t c l := by
  have hc : c ≤ R := h.climbing.le
  have hmax : MAX_FREQ = 0x8000 := rfl
  have hroot := h.root
  have hsort := h.climbing.weighs.sorted
  have hle := hsort c R hc (Nat.le_refl _)
  have hT : T = R + 1 := rfl
  have hmod : (t.freq c + 1) % 0x10000 = t.freq c + 1 := Nat.mod_eq_of_lt (by omega)
  have hmark := h.mark
  unfold growNode
  simp only [hmod]
  by_cases hmore : t.freq c + 1 > t.freq (c + 1)
  · -- other nodes have the same frequency
    have hcR : c ≠ R := by
      intro heq
      rw [heq, ← hT, hmark] at hmore
      omega
    obtain ⟨l', hscan, hlt, hle', hstop, hall⟩ := scan_spec
      (Function.update t.freq c (t.freq c + 1)) (t.freq c + 1) (c + 1) (by omega)
      (by rw [Function.update_of_ne (by omega), hmark]; omega)
    rw [Function.update_of_ne (by omega), if_pos hmore, hscan]
    rw [Function.update_of_ne (by omega)] at hstop
    have hsame : t.freq c = t.freq (l' - 1) := by
      have hbefore := hsort c (l' - 1) (by omega) (by rw [← R_eq]; omega)
      by_cases hfirst : l' = c + 1 + 1
      · rw [hfirst, Nat.add_sub_cancel] at hbefore ⊢
        omega
      · have hsmall := hall (l' - 1) (by omega) (by omega)
        rw [Function.update_of_ne (by omega)] at hsmall
        omega
    refine ⟨l' - 1, ?_, by omega, by rw [← R_eq]; omega, hsame, fun hlast => ?_⟩
    · exact congrArg (fun t' => some (t', l' - 1)) (swapNodes_eq (by omega) hsame)
    · rw [show l' - 1 + 1 = l' by omega]
      omega
  · rw [Function.update_of_ne (by omega), if_neg hmore]
    refine ⟨c, ?_, Nat.le_refl _, hc, rfl, fun _ => by omega⟩
    unfold passOn
    rw [if_pos rfl]
    rfl

theorem Climbs.passOn (h : Climbs t c) (hl : Last 313 t c l) (hroot : l < R) :
    Climbs (passOn 313 t c l) ((passOn 313 t c l).prnt l) := by
  have hT : T = R + 1 := rfl
  refine ⟨h.climbing.passOn hl hroot, ?_, ?_⟩
  · unfold sibling_tree.passOn
    rw [bump_freq, moved_freq, one_of_ne (by omega)]
    exact h.mark
  · rw [R_eq, passOn_freq_root, one_of_ne (by rw [R_eq] at hroot; omega)]
    exact h.root

/-- The loop ends at the root, and only the leaf that it began with has one more. -/
theorem climb_spec {fuel : Nat} (h : Climbs t c) (hfuel : R < c + fuel) :
    ∃ t', climb fuel t c = some t' ∧ Ready t' ∧ t'.freq R = t.freq R + 1 ∧
      ∀ k ≤ 313, weight 313 t' k = weight 313 t k + one (t.son c) (T + k) := by
  induction fuel generalizing t c with
  | zero =>
    have hle : c ≤ R := h.climbing.le
    omega
  | succ fuel ih =>
    obtain ⟨l, hgrow, hl⟩ := growNode_spec h
    have hle := hl.le
    have hweight := fun k hk => passOn_weight (k := k) h.climbing hl hk
    simp only [climb, hgrow]
    by_cases hroot : l = R
    · subst hroot
      have htree : Tree 313 (passOn 313 t c R) := h.climbing.passOn_root hl
      have hzero : (passOn 313 t c R).prnt R = 0 := htree.links.root
      rw [if_neg (not_not.mpr hzero)]
      have hfreq : (passOn 313 t c R).freq R = t.freq R + 1 := by
        rw [R_eq, passOn_freq_root, one_self]
      refine ⟨_, rfl, ⟨htree, ?_, ?_⟩, hfreq, hweight⟩
      · unfold passOn
        rw [bump_freq, moved_freq, one_of_ne (by decide)]
        exact h.mark
      · rw [hfreq]
        exact h.root
    · have hlt : l < R := by
        have hroot' : l ≤ R := hl.le_root
        omega
      have hnext := h.passOn hl hlt
      have hup : l < (passOn 313 t c l).prnt l := h.climbing.passOn_lt hl hlt
      rw [if_pos (by omega)]
      obtain ⟨t', hrun, hready, hfreq, hall⟩ := ih hnext (by omega)
      refine ⟨t', hrun, hready, ?_, fun k hk => ?_⟩
      · rw [hfreq, R_eq, passOn_freq_root, one_of_ne (by rw [← R_eq]; omega)]
      · -- the node above is no leaf
        have hson : (passOn 313 t c l).son ((passOn 313 t c l).prnt l) ≤ R :=
          (h.climbing.passOn hl hlt).links.son_prnt hlt
        have hT : T = R + 1 := rfl
        have hnone := one_of_ne (c := (passOn 313 t c l).son ((passOn 313 t c l).prnt l))
          (i := T + k)
          (by omega)
        rw [hall k hk, hweight k hk, hnone]
        rfl

/-! ## Nodes are connected -/

variable {d : Nat} {w : Nat → Nat} {ns : List (Nat × Nat)}

/-- The sum of all frequencies. -/
def total (w : Nat → Nat) : Nat := ((List.range N_CHAR).map w).sum

theorem findPlace_spec (freq : Nat → Nat) (f n : Nat) (h : ∃ x < n, freq x ≤ f) :
    ∃ k, findPlace freq f n = some (k + 1) ∧ k < n ∧ freq k ≤ f ∧
      ∀ y, k < y → y < n → f < freq y := by
  induction n with
  | zero =>
    obtain ⟨x, hx, -⟩ := h
    omega
  | succ n ih =>
    simp only [findPlace]
    by_cases hlast : f < freq n
    · rw [if_pos hlast]
      have hbefore : ∃ x < n, freq x ≤ f := by
        obtain ⟨x, hx, hfx⟩ := h
        refine ⟨x, ?_, hfx⟩
        have hne : x ≠ n := by
          rintro rfl
          omega
        omega
      obtain ⟨k, hfind, hk, hfk, hall⟩ := ih hbefore
      refine ⟨k, hfind, by omega, hfk, fun y hy hy' => ?_⟩
      by_cases hyn : y = n
      · rw [hyn]
        exact hlast
      · exact hall y hy (by omega)
    · rw [if_neg hlast]
      exact ⟨n, rfl, Nat.lt_succ_self _, Nat.le_of_not_lt hlast, fun y hy hy' => by omega⟩

theorem moveUp_outside {a : Nat → Nat} {x n : Nat} (h : x < k + 1 ∨ k + 1 + n ≤ x) :
    moveUp a k n x = a x :=
  if_neg (by omega)

theorem moveUp_inside {a : Nat → Nat} {x n : Nat} (h : k + 1 ≤ x) (h' : x < k + 1 + n) :
    moveUp a k n x = a (x - 1) :=
  if_pos ⟨h, h'⟩

/-- The place for a node, in a list and in the arrays. -/
theorem shows_insert (hs : Shows ns t) (hk : k ≤ ns.length) (f s : Nat) :
    Shows (ns.take k ++ (f, s) :: ns.drop k)
      { t with
        freq := Function.update (moveUp (Function.update t.freq ns.length f) k (ns.length - k)) k f
        son := Function.update (moveUp t.son k (ns.length - k)) k s } := by
  intro x a hx
  have hlen : (ns.take k).length = k := List.length_take_of_le hk
  by_cases hfront : x < k
  · rw [List.getElem?_append_left (by omega), List.getElem?_take_of_lt hfront] at hx
    have hold := hs x a hx
    simp only
    rw [Function.update_of_ne (by omega), Function.update_of_ne (by omega),
      moveUp_outside (by omega), moveUp_outside (by omega), Function.update_of_ne (by omega)]
    exact hold
  · rw [List.getElem?_append_right (by omega), hlen, List.getElem?_cons] at hx
    by_cases hplace : x = k
    · rw [if_pos (by omega)] at hx
      obtain rfl := Option.some.inj hx
      simp only [hplace, Function.update_self]
      exact ⟨trivial, trivial⟩
    · rw [if_neg (by omega), List.getElem?_drop] at hx
      obtain ⟨hin, -⟩ := List.getElem?_eq_some_iff.mp hx
      have hold := hs _ a hx
      rw [show k + (x - k - 1) = x - 1 by omega] at hold
      simp only
      rw [Function.update_of_ne hplace, Function.update_of_ne hplace,
        moveUp_inside (by omega) (by omega), moveUp_inside (by omega) (by omega),
        Function.update_of_ne (by omega)]
      exact hold

/-- A new node goes to its place. -/
theorem built_insert (h : Built 313 d w ns) (hs : Shows ns t) (hd : d < 313)
    (htotal : total w < 0x10000) :
    ∃ f k, (t.freq (2 * d) + t.freq (2 * d + 1)) % 0x10000 = f ∧
      findPlace (Function.update t.freq ns.length f) f ns.length = some k ∧ k ≤ ns.length ∧
      Built 313 (d + 1) w (ns.take k ++ (f, 2 * d) :: ns.drop k) := by
  have hlen := h.length
  have ha := hs.get (i := 2 * d) (by omega)
  have hb := hs.get (i := 2 * d + 1) (by omega)
  have hsmall : t.freq (2 * d) + t.freq (2 * d + 1) ≤ total w := h.add_le ha hb
  obtain ⟨k, hfind, hk, hbefore, hbehind⟩ := findPlace_spec
    (Function.update t.freq ns.length (t.freq (2 * d) + t.freq (2 * d + 1)))
    (t.freq (2 * d) + t.freq (2 * d + 1)) ns.length
    ⟨2 * d, by omega, by rw [Function.update_of_ne (by omega)]; omega⟩
  rw [Function.update_of_ne (by omega)] at hbefore
  refine ⟨_, k + 1, Nat.mod_eq_of_lt (by omega), hfind, hk, ?_⟩
  rw [← List.take_append_drop (k + 1) ns] at h ha hb
  refine h.insert hd ha hb (fun x hx => ?_) fun y hy => ?_
  · obtain ⟨i, hi, rfl⟩ := List.mem_take_iff_getElem.mp hx
    rw [List.take_append_drop] at h
    have hle := h.get_le (i := i) (j := k) (by omega) (List.getElem?_eq_getElem (by omega))
      (hs.get hk)
    exact Nat.le_trans hle hbefore
  · obtain ⟨i, hi, rfl⟩ := List.mem_drop_iff_getElem.mp hy
    have hlarge := hbehind (k + 1 + i) (by omega) (by omega)
    rw [Function.update_of_ne (by omega)] at hlarge
    have hshow := hs _ _ (List.getElem?_eq_getElem (show k + 1 + i < ns.length by omega))
    rw [hshow.1] at hlarge
    exact hlarge

/-- All nodes are connected. -/
theorem connect_spec (h : Built 313 d w ns) (hs : Shows ns t) (hd : d ≤ 313)
    (htotal : total w < 0x10000) :
    ∃ t' ns', connect (2 * d) (N_CHAR + d) t = some t' ∧ Built 313 313 w ns' ∧ Shows ns' t' ∧
      t'.prnt = t.prnt ∧ t'.freq T = t.freq T := by
  induction hn : 313 - d generalizing d ns t with
  | zero =>
    obtain rfl : d = 313 := by omega
    refine ⟨t, ns, ?_, h, hs, rfl, rfl⟩
    rw [connect, if_neg (by decide)]
  | succ n ih =>
    have hlen : ns.length = N_CHAR + d := h.length
    have hT : T = N_CHAR + 313 := rfl
    obtain ⟨f, k, hf, hfind, hk, hnext⟩ := built_insert h hs (by omega) htotal
    rw [hlen] at hfind
    have hshow := shows_insert hs hk f (2 * d)
    rw [hlen] at hshow hk
    obtain ⟨t', ns', hrun, hbuilt, hshows, hprnt, hmark⟩ := ih hnext hshow (by omega) (by omega)
    refine ⟨t', ns', ?_, hbuilt, hshows, hprnt, ?_⟩
    · rw [connect, if_pos (by omega)]
      simp only [hf, hfind]
      exact hrun
    · rw [hmark]
      simp only
      rw [Function.update_of_ne (by omega), moveUp_outside (by omega),
        Function.update_of_ne (by omega)]

/-! ## Parents are connected -/

theorem connectParents_prnt (t : Nodes) (i x : Nat) :
    (connectParents t i).prnt x = if Pair 313 (t.son i) x then i else t.prnt x := by
  unfold connectParents
  simp only
  by_cases hleaf : t.son i ≥ T
  · rw [if_pos hleaf]
    by_cases hx : x = t.son i
    · rw [if_pos (.inl hx)]
      simp only [hx, Function.update_self]
    · have hT : T = 2 * 313 + 1 := rfl
      rw [if_neg (by unfold Pair; omega)]
      simp only [Function.update_of_ne hx]
  · rw [if_neg hleaf]
    have hT : T = 2 * 313 + 1 := rfl
    by_cases hx : x = t.son i
    · rw [if_pos (.inl hx)]
      simp only [hx, Function.update_self]
    · simp only [Function.update_of_ne hx]
      by_cases hx' : x = t.son i + 1
      · rw [if_pos (.inr ⟨by omega, hx'⟩), hx', Function.update_self]
      · rw [if_neg (by unfold Pair; omega), Function.update_of_ne hx']

theorem connectParents_son (t : Nodes) (i : Nat) :
    (connectParents t i).son = t.son ∧ (connectParents t i).freq = t.freq := by
  unfold connectParents
  simp only
  split <;> exact ⟨rfl, rfl⟩

/-- Each son has its parent, where no two nodes have the same son. -/
theorem foldl_connectParents (t : Nodes) (n : Nat)
    (hinj : ∀ i j x, i < n → j < n → Pair 313 (t.son i) x → Pair 313 (t.son j) x → i = j) :
    ((List.range n).foldl connectParents t).son = t.son ∧
      ((List.range n).foldl connectParents t).freq = t.freq ∧
      (∀ i < n, ∀ x, Pair 313 (t.son i) x →
        ((List.range n).foldl connectParents t).prnt x = i) ∧
      ∀ x, (∀ i < n, ¬Pair 313 (t.son i) x) →
        ((List.range n).foldl connectParents t).prnt x = t.prnt x := by
  induction n with
  | zero => exact ⟨rfl, rfl, fun i hi => absurd hi (Nat.not_lt_zero i), fun x _ => rfl⟩
  | succ n ih =>
    obtain ⟨hson, hfreq, hset, hkeep⟩ :=
      ih fun i j x hi hj => hinj i j x (Nat.lt_succ_of_lt hi) (Nat.lt_succ_of_lt hj)
    rw [List.range_succ, List.foldl_append, List.foldl_cons, List.foldl_nil]
    obtain ⟨hson', hfreq'⟩ := connectParents_son ((List.range n).foldl connectParents t) n
    refine ⟨hson'.trans hson, hfreq'.trans hfreq, fun i hi x hx => ?_, fun x hx => ?_⟩
    · rw [connectParents_prnt, hson]
      by_cases hlast : i = n
      · rw [if_pos (by rwa [← hlast]), hlast]
      · rw [if_neg fun hx' => hlast (hinj i n x hi (Nat.lt_succ_self n) hx hx')]
        exact hset i (by omega) x hx
    · rw [connectParents_prnt, hson, if_neg (hx n (Nat.lt_succ_self n))]
      exact hkeep x fun i hi => hx i (Nat.lt_succ_of_lt hi)

/-! ## Frequencies are halved -/

/-- The leaves among the first nodes. -/
def kept (t : Nodes) (i : Nat) : List (Nat × Nat) :=
  ((List.range i).filter fun p => T ≤ t.son p).map fun p => ((t.freq p + 1) / 2, t.son p)

theorem kept_succ_leaf (h : T ≤ t.son i) :
    kept t (i + 1) = kept t i ++ [((t.freq i + 1) / 2, t.son i)] := by
  unfold kept
  rw [List.range_succ, List.filter_append, List.map_append, List.filter_cons, if_pos (by simpa)]
  rfl

theorem kept_succ_node (h : ¬T ≤ t.son i) : kept t (i + 1) = kept t i := by
  unfold kept
  rw [List.range_succ, List.filter_append, List.map_append, List.filter_cons,
    if_neg (by simpa using h)]
  simp

theorem length_kept_le (t : Nodes) (i : Nat) : (kept t i).length ≤ i := by
  unfold kept
  rw [List.length_map]
  exact (List.length_filter_le _ _).trans (Nat.le_of_eq List.length_range)

theorem shows_snoc (hs : Shows ns t) (f s : Nat) :
    Shows (ns ++ [(f, s)])
      { t with
        freq := Function.update t.freq ns.length f
        son := Function.update t.son ns.length s } := by
  intro x a hx
  rw [List.getElem?_append] at hx
  simp only
  split at hx
  · rw [Function.update_of_ne (by omega), Function.update_of_ne (by omega)]
    exact hs x a hx
  · rw [List.getElem?_singleton] at hx
    split at hx
    · obtain rfl := Option.some.inj hx
      obtain rfl : x = ns.length := by omega
      rw [Function.update_self, Function.update_self]
      exact ⟨rfl, rfl⟩
    · simp at hx

/-- What the loop has done before a node. -/
structure Halves (t t' : Nodes) (i : Nat) : Prop where
  shows : Shows (kept t i) t'
  rest : ∀ x, i ≤ x → t'.freq x = t.freq x ∧ t'.son x = t.son x
  prnt : t'.prnt = t.prnt

theorem halve_spec {t' : Nodes} (h : Halves t t' i) (hi : i ≤ T) :
    Halves t (halve i (kept t i).length t') T := by
  induction hn : T - i generalizing i t' with
  | zero =>
    obtain rfl : i = T := by omega
    rw [halve, if_neg (Nat.lt_irrefl _)]
    exact h
  | succ n ih =>
    have hlen := length_kept_le t i
    obtain ⟨hfreq, hson⟩ := h.rest i (Nat.le_refl _)
    rw [halve, if_pos (by omega), hson, hfreq]
    by_cases hleaf : T ≤ t.son i
    · rw [if_pos hleaf]
      have hlength : (kept t i).length + 1 = (kept t (i + 1)).length := by
        rw [kept_succ_leaf hleaf, List.length_append, List.length_singleton]
      rw [hlength]
      refine ih ⟨?_, fun x hx => ?_, h.prnt⟩ (by omega) (by omega)
      · rw [kept_succ_leaf hleaf]
        exact shows_snoc h.shows _ _
      · simp only
        rw [Function.update_of_ne (by omega), Function.update_of_ne (by omega)]
        exact h.rest x (by omega)
    · rw [if_neg hleaf, ← kept_succ_node hleaf]
      refine ih ⟨?_, fun x hx => h.rest x (by omega), h.prnt⟩ (by omega) (by omega)
      rw [kept_succ_node hleaf]
      exact h.shows

/-- Half of a frequency, not less than one. -/
def half (w : Nat → Nat) (c : Nat) : Nat := (w c + 1) / 2

/-- What is kept of a tree are its leaves. -/
theorem built_kept (h : Tree 313 t) : Built 313 0 (half (weight 313 t)) (kept t T) := by
  have hT : T = 2 * 313 + 1 := rfl
  have hmem : ∀ p, p ∈ (List.range T).filter (fun p => T ≤ t.son p) ↔
      p ≤ 2 * 313 ∧ T ≤ t.son p := by
    intro p
    rw [List.mem_filter, List.mem_range, decide_eq_true_iff]
    omega
  refine built_leaves ?_ ?_ ?_ ?_
  · refine List.pairwise_map.mpr
      ((List.pairwise_lt_range.filter _).imp_of_mem fun {p q} hp hq hpq => ?_)
    have hsort := h.weighs.sorted p q (Nat.le_of_lt hpq) ((hmem q).mp hq).1
    simp only
    omega
  · intro a ha
    obtain ⟨p, hp, rfl⟩ := List.mem_map.mp ha
    have hpos := h.weighs.pos p ((hmem p).mp hp).1
    simp only
    omega
  · have hsons : (kept t T).map Prod.snd =
        ((List.range T).filter fun p => T ≤ t.son p).map t.son := by
      unfold kept
      rw [List.map_map]
      rfl
    rw [hsons, List.perm_ext_iff_of_nodup]
    · intro s
      rw [List.mem_map, mem_leaves]
      constructor
      · rintro ⟨p, hp, rfl⟩
        obtain ⟨hle, hleaf⟩ := (hmem p).mp hp
        exact ⟨hleaf, h.links.bound p hle⟩
      · rintro ⟨hlow, hhigh⟩
        obtain ⟨hle, hson⟩ := h.links.prnt_leaf (c := s - (2 * 313 + 1)) (by omega)
        rw [show 2 * 313 + 1 + (s - (2 * 313 + 1)) = s by omega] at hle hson
        exact ⟨t.prnt s, (hmem _).mpr ⟨hle, by rw [hson]; exact hlow⟩, hson⟩
    · refine List.Nodup.map_on (fun p hp q hq hpq => ?_) (List.nodup_range.filter _)
      have hdown := h.links.down p ((hmem p).mp hp).1 _ (.inl rfl)
      have hdown' := h.links.down q ((hmem q).mp hq).1 _ (.inl rfl)
      rw [← hdown, ← hdown', hpq]
    · exact List.nodup_range.map fun a b hab => Nat.add_left_cancel hab
  · intro a ha c hc
    obtain ⟨p, hp, rfl⟩ := List.mem_map.mp ha
    have hdown := h.links.down p ((hmem p).mp hp).1 _ (.inl rfl)
    simp only at hc
    rw [hc] at hdown
    unfold half weight
    rw [hdown]

theorem total_half (w : Nat → Nat) (l : List Nat) :
    2 * (l.map (half w)).sum ≤ (l.map w).sum + l.length := by
  induction l with
  | nil => simp
  | cons c l ih =>
    simp only [List.map_cons, List.sum_cons, List.length_cons, half] at ih ⊢
    omega

theorem total_weight (h : Tree 313 t) : total (weight 313 t) = t.freq R := by
  rw [R_eq, ← h.sum_weight]
  rfl

/-- All that is known of the arrays when the parents are connected. -/
theorem ready_of_built (h : Built 313 313 w ns) (hs : Shows ns t)
    (hdown : ∀ i ≤ 2 * 313, ∀ x, Pair 313 (t.son i) x → t.prnt x = i) (hroot : t.prnt R = 0)
    (hmark : t.freq T = 0xffff) (htotal : total w ≤ MAX_FREQ) :
    Ready t ∧ t.freq R = total w ∧ ∀ c ≤ 313, weight 313 t c = w c := by
  have htree := h.tree hs hdown hroot
  have hlen := h.length
  have hfreq : t.freq R = total w := h.root (hs.get (i := 2 * 313) (by omega))
  exact ⟨⟨htree, hmark, by rw [hfreq]; exact htotal⟩, hfreq, fun c hc => h.weight hs htree hc⟩

/-- The tree is built again with half of the frequencies. -/
theorem state_reconst_spec (h : Ready t) :
    ∃ t', state_reconst t = some t' ∧ Ready t' ∧ t'.freq R < MAX_FREQ ∧
      t'.freq R = total (half (weight 313 t)) ∧
      ∀ c ≤ 313, weight 313 t' c = half (weight 313 t) c := by
  have hmax : MAX_FREQ = 0x8000 := rfl
  have hsmall := total_half (weight 313 t) (List.range N_CHAR)
  have hold : ((List.range N_CHAR).map (weight 313 t)).sum = t.freq R := total_weight h.tree
  have hroot := h.root
  have htotal : total (half (weight 313 t)) < MAX_FREQ := by
    have hn : N_CHAR = 314 := rfl
    unfold total
    rw [List.length_range] at hsmall
    omega
  have hhalves := halve_spec (t := t) (i := 0) ⟨by simp [Shows, kept], fun x _ => ⟨rfl, rfl⟩, rfl⟩
    (Nat.zero_le _)
  obtain ⟨t', ns, hrun, hbuilt, hshows, hprnt, hmark⟩ :=
    connect_spec (built_kept h.tree) hhalves.shows (Nat.zero_le _) (by omega)
  have hlen := hbuilt.length
  obtain ⟨hson, hfreq, hset, hkeep⟩ := foldl_connectParents t' T fun i j x hi hj hx hx' =>
    hbuilt.pair_inj hshows (Nat.le_refl _) (by rw [T_eq] at hi; omega) (by rw [T_eq] at hj; omega)
      hx hx'
  have hshows' : Shows ns ((List.range T).foldl connectParents t') := by
    intro i a ha
    rw [hson, hfreq]
    exact hshows i a ha
  have hdown : ∀ i ≤ 2 * 313, ∀ x, Pair 313 (((List.range T).foldl connectParents t').son i) x →
      ((List.range T).foldl connectParents t').prnt x = i := by
    intro i hi x hx
    rw [hson] at hx
    exact hset i (by rw [T_eq]; omega) x hx
  have hprntR : ((List.range T).foldl connectParents t').prnt R = 0 := by
    rw [hkeep R fun i hi hx => ?_, hprnt, hhalves.prnt]
    · exact h.tree.links.root
    · -- the root is no son
      unfold Pair at hx
      rw [R_eq] at hx
      rcases hbuilt.son_cases hshows (i := i) (by rw [T_eq] at hi; omega) with hleaf | ⟨e, he, heq⟩
      · omega
      · omega
  have hmark' : ((List.range T).foldl connectParents t').freq T = 0xffff := by
    rw [hfreq, hmark, (hhalves.rest T (Nat.le_refl _)).1]
    exact h.mark
  obtain ⟨hready, hR, hweight⟩ :=
    ready_of_built hbuilt hshows' hdown hprntR hmark' (Nat.le_of_lt htotal)
  refine ⟨_, ?_, hready, by rw [hR]; exact htotal, hR, hweight⟩
  unfold state_reconst
  have hrun' : connect 0 N_CHAR (halve 0 0 t) = some t' := hrun
  rw [hrun']
  rfl

/-! ## The first tree -/

/-- Each character was seen once. -/
def ones (_ : Nat) : Nat := 1

theorem total_ones : total ones = N_CHAR := by
  unfold total ones
  simp

theorem foldl_startLeaf (t : Nodes) (n : Nat) (hn : n ≤ T) :
    ∀ i < n, ((List.range n).foldl startLeaf t).freq i = 1 ∧
      ((List.range n).foldl startLeaf t).son i = i + T ∧
      ((List.range n).foldl startLeaf t).prnt (i + T) = i := by
  induction n with
  | zero => exact fun i hi => absurd hi (Nat.not_lt_zero i)
  | succ n ih =>
    intro i hi
    rw [List.range_succ, List.foldl_append, List.foldl_cons, List.foldl_nil]
    unfold startLeaf
    simp only
    by_cases hlast : i = n
    · rw [hlast, Function.update_self, Function.update_self, Function.update_self]
      exact ⟨rfl, rfl, rfl⟩
    · rw [Function.update_of_ne hlast, Function.update_of_ne hlast,
        Function.update_of_ne (by omega)]
      exact ih (by omega) i (by omega)

/-- What the loop over the other nodes keeps. -/
structure Starts (ns : List (Nat × Nat)) (d : Nat) (t : Nodes) : Prop where
  built : Built 313 d ones ns
  shows : Shows ns t
  order : ∀ e < d, t.son (N_CHAR + e) = 2 * e
  down : ∀ i < N_CHAR + d, ∀ x, Pair 313 (t.son i) x → t.prnt x = i

theorem starts_leaves (t : Nodes) :
    Starts ((List.range N_CHAR).map fun c => (1, 2 * 313 + 1 + c)) 0
      ((List.range N_CHAR).foldl startLeaf t) := by
  have hT : T = 2 * 313 + 1 := rfl
  have hleaf := foldl_startLeaf t N_CHAR (by decide)
  refine ⟨built_leaves ?_ ?_ ?_ ?_, fun i a ha => ?_, fun e he => absurd he (Nat.not_lt_zero e),
    fun i hi x hx => ?_⟩
  · exact List.pairwise_map.mpr (List.pairwise_lt_range.imp fun _ => Nat.le_refl 1)
  · intro a ha
    obtain ⟨c, -, rfl⟩ := List.mem_map.mp ha
    exact Nat.zero_lt_one
  · rw [List.map_map]
    exact List.Perm.refl _
  · intro a ha c _
    obtain ⟨c, -, rfl⟩ := List.mem_map.mp ha
    rfl
  · obtain ⟨hi, rfl⟩ := List.getElem?_eq_some_iff.mp ha
    rw [List.length_map, List.length_range] at hi
    obtain ⟨hfreq, hson, -⟩ := hleaf i hi
    rw [List.getElem_map, List.getElem_range, hfreq, hson, Nat.add_comm i, hT]
    exact ⟨rfl, rfl⟩
  · obtain ⟨-, hson, hprnt⟩ := hleaf i hi
    have hx' : x = i + T := by
      unfold Pair at hx
      omega
    rw [hx']
    exact hprnt

/-- The node that comes next is not lighter than the last one. -/
theorem Starts.le_next (h : Starts ns d t) (hd : d < 313) {x : Nat × Nat} (hx : x ∈ ns) :
    x.1 ≤ t.freq (2 * d) + t.freq (2 * d + 1) := by
  have hlen : ns.length = N_CHAR + d := h.built.length
  have hn : N_CHAR = 314 := rfl
  have hget : ∀ i < N_CHAR + d, ns[i]? = some (t.freq i, t.son i) := fun i hi =>
    h.shows.get (by omega)
  obtain ⟨i, hi⟩ := List.mem_iff_getElem?.mp hx
  obtain ⟨hlt, -⟩ := List.getElem?_eq_some_iff.mp hi
  have hlast := h.built.get_le (i := i) (j := N_CHAR + d - 1) (by omega) hi (hget _ (by omega))
  refine Nat.le_trans hlast ?_
  have hpos := h.built.pos _ (List.mem_of_getElem? (hget (2 * d) (by omega)))
  cases d with
  | zero =>
    -- the last one is a leaf
    rcases h.built.son_cases h.shows (i := N_CHAR + 0 - 1) (by omega) with hleaf | ⟨e, he, -⟩
    · have hone := h.built.leaf _ (List.mem_of_getElem? (hget (N_CHAR + 0 - 1) (by omega)))
        (t.son (N_CHAR + 0 - 1) - (2 * 313 + 1)) (by simp only; omega)
      unfold ones at hone
      simp only at hone hpos ⊢
      omega
    · exact absurd he (Nat.not_lt_zero e)
  | succ d =>
    have hnode := hget (N_CHAR + (d + 1) - 1) (by omega)
    rw [show N_CHAR + (d + 1) - 1 = N_CHAR + d by omega, h.order d (Nat.lt_succ_self d)] at hnode
    obtain ⟨-, a, b, ha, hb, hsum⟩ := h.built.sum _ d _ hnode (Nat.lt_succ_self d)
    have hfirst := h.built.get_le (i := 2 * d) (j := 2 * (d + 1)) (by omega) ha (hget _ (by omega))
    have hsecond := h.built.get_le (i := 2 * d + 1) (j := 2 * (d + 1) + 1) (by omega) hb
      (hget _ (by omega))
    simp only [show N_CHAR + (d + 1) - 1 = N_CHAR + d by omega] at hfirst hsecond ⊢
    omega

theorem Starts.next (h : Starts ns d t) (hd : d < 313) :
    Starts (ns ++ [(t.freq (2 * d) + t.freq (2 * d + 1), 2 * d)]) (d + 1)
      { freq := Function.update t.freq (N_CHAR + d)
          ((t.freq (2 * d) + t.freq (2 * d + 1)) % 0x10000)
        son := Function.update t.son (N_CHAR + d) (2 * d)
        prnt := Function.update (Function.update t.prnt (2 * d + 1) (N_CHAR + d)) (2 * d)
          (N_CHAR + d) } := by
  have hlen : ns.length = N_CHAR + d := h.built.length
  have hn : N_CHAR = 314 := rfl
  have ha := h.shows.get (i := 2 * d) (by omega)
  have hb := h.shows.get (i := 2 * d + 1) (by omega)
  have hsmall : t.freq (2 * d) + t.freq (2 * d + 1) ≤ total ones := h.built.add_le ha hb
  rw [total_ones] at hsmall
  have hbuilt : Built 313 (d + 1) ones
      (ns ++ [(t.freq (2 * d) + t.freq (2 * d + 1), 2 * d)]) := by
    have hinsert := h.built
    rw [← List.append_nil ns] at hinsert ha hb
    exact hinsert.insert hd ha hb (fun x hx => h.le_next hd hx) fun y hy => by simp at hy
  have hshows := shows_snoc h.shows (t.freq (2 * d) + t.freq (2 * d + 1)) (2 * d)
  rw [hlen] at hshows
  rw [Nat.mod_eq_of_lt (by omega)]
  refine ⟨hbuilt, hshows, fun e he => ?_, fun i hi x hx => ?_⟩
  · simp only
    by_cases hlast : e = d
    · rw [hlast, Function.update_self]
    · rw [Function.update_of_ne (by omega)]
      exact h.order e (by omega)
  · have hnew : Pair 313 (Function.update t.son (N_CHAR + d) (2 * d) (N_CHAR + d)) x ↔
        x = 2 * d ∨ x = 2 * d + 1 := by
      rw [Function.update_self]
      unfold Pair
      omega
    have hlength := hbuilt.length
    simp only
    by_cases hlast : i = N_CHAR + d
    · rw [hlast] at hx ⊢
      rcases hnew.mp hx with rfl | rfl
      · rw [Function.update_self]
      · rw [Function.update_of_ne (by omega), Function.update_self]
    · have hother : ¬(x = 2 * d ∨ x = 2 * d + 1) := fun hx' => hlast
        (hbuilt.pair_inj hshows (by omega) (by omega) (by omega) hx (hnew.mpr hx'))
      rw [Function.update_of_ne (by omega), Function.update_of_ne (by omega)]
      simp only [Function.update_of_ne hlast] at hx
      exact h.down i (by omega) x hx

theorem startNodes_spec (h : Starts ns d t) (hd : d ≤ 313) :
    ∃ ns', Starts ns' 313 (startNodes (2 * d) (N_CHAR + d) t) := by
  have hn : N_CHAR = 314 := rfl
  induction hk : 313 - d generalizing d ns t with
  | zero =>
    obtain rfl : d = 313 := by omega
    rw [startNodes, if_neg (by decide)]
    exact ⟨ns, h⟩
  | succ k ih =>
    rw [startNodes, if_pos (by rw [R_eq]; omega)]
    exact ih (h.next (by omega)) (by omega) (by omega)

/-- The tree at the start. -/
theorem state_StartHuff_spec (t : Nodes) :
    Ready (state_StartHuff t) ∧ ∀ c ≤ 313, weight 313 (state_StartHuff t) c = 1 := by
  have hT : T = 2 * 313 + 1 := rfl
  obtain ⟨ns, h⟩ := startNodes_spec (starts_leaves t) (Nat.zero_le _)
  have hlen : ns.length = 627 := h.built.length
  have hshows : Shows ns (state_StartHuff t) := by
    intro i a ha
    obtain ⟨hi, -⟩ := List.getElem?_eq_some_iff.mp ha
    unfold state_StartHuff
    simp only
    rw [Function.update_of_ne (by omega)]
    exact h.shows i a ha
  have hroot : (state_StartHuff t).prnt R = 0 := by
    unfold state_StartHuff
    simp only [Function.update_self]
  have hmark : (state_StartHuff t).freq T = 0xffff := by
    unfold state_StartHuff
    simp only [Function.update_self]
  have hready := ready_of_built h.built hshows (fun i hi x hx => ?_) hroot hmark
    (by rw [total_ones]; decide)
  · exact ⟨hready.1, hready.2.2⟩
  · have hdown := h.down i (by rw [N_CHAR_eq]; omega) x hx
    have hxR : x ≠ R := by
      rintro rfl
      unfold Pair at hx
      rw [R_eq] at hx
      rcases h.built.son_cases hshows (i := i) (by omega) with hleaf | ⟨e, he, heq⟩
      · omega
      · omega
    unfold state_StartHuff
    simp only
    rw [Function.update_of_ne hxR]
    exact hdown

/-! ## All characters -/

/-- One more for a character, where all are halved first when they come to the limit. -/
def tally (w : Nat → Nat) (c : Nat) : Nat → Nat :=
  let w := if total w = MAX_FREQ then half w else w
  Function.update w c (w c + 1)

theorem Ready.climbs (h : Ready t) (hlimit : t.freq R < MAX_FREQ) (hc : c < N_CHAR) :
    Climbs t (t.prnt (c + T)) ∧ t.son (t.prnt (c + T)) = T + c := by
  have hT : T = 2 * 313 + 1 := rfl
  have hn : N_CHAR = 314 := rfl
  obtain ⟨hle, hson⟩ := h.tree.links.prnt_leaf (c := c) (by omega)
  rw [← hT, Nat.add_comm T c] at hle hson
  refine ⟨⟨⟨h.tree.links, ⟨h.tree.weighs.pos, h.tree.weighs.sorted, fun i hi hnode => ?_⟩, hle⟩,
    h.mark, hlimit⟩, by rw [hson, Nat.add_comm]⟩
  rw [one_of_ne]
  · exact h.tree.weighs.sum i hi hnode
  · rintro rfl
    omega

theorem state_update_spec (h : Ready t) (hc : c < N_CHAR) :
    ∃ t', state_update t c = some t' ∧ Ready t' ∧
      ∀ k < N_CHAR, weight 313 t' k = tally (weight 313 t) c k := by
  have hn : N_CHAR = 314 := rfl
  -- the tree that the loop begins with
  obtain ⟨t₁, hfirst, h₁, hlimit, hweight⟩ : ∃ t₁,
      (if t.freq R = MAX_FREQ then state_reconst t else some t) = some t₁ ∧ Ready t₁ ∧
        t₁.freq R < MAX_FREQ ∧ ∀ k ≤ 313, weight 313 t₁ k =
          (if total (weight 313 t) = MAX_FREQ then half (weight 313 t) else weight 313 t) k := by
    rw [total_weight h.tree]
    by_cases hfull : t.freq R = MAX_FREQ
    · rw [if_pos hfull, if_pos hfull]
      obtain ⟨t₁, hrun, h₁, hlimit, -, hweight⟩ := state_reconst_spec h
      exact ⟨t₁, hrun, h₁, hlimit, hweight⟩
    · rw [if_neg hfull, if_neg hfull]
      exact ⟨t, rfl, h, Nat.lt_of_le_of_ne h.root hfull, fun _ _ => rfl⟩
  obtain ⟨hclimbs, hson⟩ := h₁.climbs hlimit hc
  have hfuel : R < t₁.prnt (c + T) + T := Nat.lt_add_left _ (Nat.lt_succ_self R)
  obtain ⟨t', hrun, h', -, hall⟩ := climb_spec hclimbs hfuel
  refine ⟨t', ?_, h', fun k hk => ?_⟩
  · unfold state_update
    rw [hfirst]
    exact hrun
  · rw [hall k (by omega), hweight k (by omega), hson]
    unfold tally
    by_cases hkc : k = c
    · rw [hkc, Function.update_self, one_self]
    · rw [Function.update_of_ne hkc, one_of_ne (by omega), Nat.add_zero]

theorem tally_congr {w w' : Nat → Nat} (h : ∀ k < N_CHAR, w k = w' k) (hc : c < N_CHAR) :
    ∀ k < N_CHAR, tally w c k = tally w' c k := by
  intro k hk
  have htotal : total w = total w' := by
    unfold total
    congr 1
    exact List.map_congr_left fun k hk => h k (List.mem_range.mp hk)
  unfold tally
  simp only [htotal]
  by_cases hkc : k = c
  · rw [hkc, Function.update_self, Function.update_self]
    split
    · rw [half, half, h c hc]
    · rw [h c hc]
  · rw [Function.update_of_ne hkc, Function.update_of_ne hkc]
    split
    · rw [half, half, h k hk]
    · exact h k hk

/-- After any characters the tree is whole and ordered, no loop leaves the arrays, and the leaves
have the numbers of the characters. -/
theorem state_update_runs (t₀ : Nodes) (cs : List Nat) (hcs : ∀ c ∈ cs, c < N_CHAR) :
    ∃ t, cs.foldlM state_update (state_StartHuff t₀) = some t ∧ Ready t ∧
      ∀ k < N_CHAR, weight 313 t k = cs.foldl tally ones k := by
  induction cs using List.reverseRecOn with
  | nil =>
    obtain ⟨hready, hones⟩ := state_StartHuff_spec t₀
    refine ⟨_, rfl, hready, fun k hk => hones k ?_⟩
    have hn : N_CHAR = 314 := rfl
    omega
  | append_singleton cs c ih =>
    obtain ⟨t, hrun, hready, hweight⟩ := ih fun c hc => hcs c (List.mem_append_left _ hc)
    have hc : c < N_CHAR := hcs c (List.mem_append_right _ (List.mem_singleton.mpr rfl))
    obtain ⟨t', hnext, hready', hweight'⟩ := state_update_spec hready hc
    refine ⟨t', ?_, hready', fun k hk => ?_⟩
    · rw [List.foldlM_append, hrun]
      simp [hnext]
    · rw [hweight' k hk, List.foldl_append]
      exact tally_congr hweight hc k hk

theorem state_update_runs_two : ∃ t,
    [65, 65].foldlM state_update (state_StartHuff ⟨fun _ => 0, fun _ => 0, fun _ => 0⟩) = some t ∧
      Ready t ∧ ∀ k < N_CHAR, weight 313 t k = [65, 65].foldl tally ones k :=
  state_update_runs _ [65, 65] (by decide)

end blumach.td0
