-- Which uops are removed, and when the barriers see what was written. The loop goes
-- through the dead list once, and what it adds to the list on the way is lost.
import BluMach.DeadUops
import Mathlib.Data.Finset.Prod
import Mathlib.Data.Finset.Card

namespace blumach.codegen_reg

open linked_list

/-! ## One entry of the list -/

theorem dropSource_uops (src : Option IrReg) (s : RegState) :
    (dropSource src s).uops = s.uops := by
  unfold dropSource
  cases src with
  | none => rfl
  | some r =>
    dsimp only
    split
    · rfl
    · rfl

/-- Besides the count, only the link of the source itself may change. -/
theorem dropSource_version (src : Option IrReg) (s : RegState) (r : IReg) (v : Nat) :
    ((dropSource src s).reg_version r v).parent_uop = (s.reg_version r v).parent_uop ∧
    ((∀ ir, src = some ir → (ir.reg, ir.version) ≠ (r, v)) →
      ((dropSource src s).reg_version r v).next = (s.reg_version r v).next) := by
  unfold dropSource
  cases src with
  | none => exact ⟨rfl, fun _ => rfl⟩
  | some ir =>
    dsimp only
    by_cases hne : r ≠ ir.reg ∨ v ≠ ir.version
    · split
      · rw [add_to_dead_list_of_ne hne, setVersion_of_ne _ _ hne]
        exact ⟨rfl, fun _ => rfl⟩
      · rw [setVersion_of_ne _ _ hne]
        exact ⟨rfl, fun _ => rfl⟩
    · obtain ⟨rfl, rfl⟩ : r = ir.reg ∧ v = ir.version := by
        rwa [not_or, not_not, not_not] at hne
      refine ⟨?_, fun h => absurd rfl (h ir rfl)⟩
      split
      · rw [add_to_dead_list_self, setVersion_self]
      · rw [setVersion_self]

def parentOf (s : RegState) (p : IReg × Nat) : Nat := (s.reg_version p.1 p.2).parent_uop

/-- Uop `i` is removed with the versions in `l`. -/
def GoesWith (s : RegState) (l : List (IReg × Nat)) (i : Nat) : Prop :=
  (∃ p ∈ l, parentOf s p = i) ∧ isBarrier (s.uops i).type = false

/-- The uop that wrote `p` reads none of the versions in `l`. -/
def ReadsNone (s : RegState) (l : List (IReg × Nat)) (p : IReg × Nat) : Prop :=
  ∀ ir, (s.uops (parentOf s p)).HasSource ir → (ir.reg, ir.version) ∉ l

/-- What the loop leaves of a uop, if it removes those that go with `l`. -/
structure Removal (l : List (IReg × Nat)) (s s' : RegState) : Prop where
  parent : ∀ p, parentOf s' p = parentOf s p
  kept : ∀ i, ¬GoesWith s l i → s'.uops i = s.uops i
  gone : ∀ i, GoesWith s l i → s'.uops i = { s.uops i with type := UOP_INVALID }

theorem UOP_INVALID_not_barrier : isBarrier UOP_INVALID = false := by decide

theorem Removal.hasSource {l : List (IReg × Nat)} {s s' : RegState} (h : Removal l s s')
    (i : Nat) (ir : IrReg) : (s'.uops i).HasSource ir ↔ (s.uops i).HasSource ir := by
  by_cases hi : GoesWith s l i
  · rw [h.gone i hi]
    exact Iff.rfl
  · rw [h.kept i hi]

theorem Removal.dest {l : List (IReg × Nat)} {s s' : RegState} (h : Removal l s s') (i : Nat) :
    (s'.uops i).dest_reg_a = (s.uops i).dest_reg_a := by
  by_cases hi : GoesWith s l i
  · rw [h.gone i hi]
  · rw [h.kept i hi]

theorem Removal.trans {p : IReg × Nat} {l : List (IReg × Nat)} {s s₁ s₂ : RegState}
    (h : Removal [p] s s₁) (h' : Removal l s₁ s₂) : Removal (p :: l) s s₂ := by
  have hparent : ∀ q, parentOf s₂ q = parentOf s q := fun q => (h'.parent q).trans (h.parent q)
  have hcons : ∀ i, GoesWith s (p :: l) i ↔ GoesWith s [p] i ∨ GoesWith s l i := by
    intro i
    unfold GoesWith
    simp only [List.mem_cons, List.not_mem_nil, or_false, exists_eq_or_imp, exists_eq_left]
    tauto
  have htail : ∀ i, ¬GoesWith s [p] i → (GoesWith s₁ l i ↔ GoesWith s l i) := by
    intro i hi
    unfold GoesWith
    rw [h.kept i hi]
    simp only [h.parent]
  refine ⟨hparent, ?_, ?_⟩
  · intro i hi
    rw [hcons, not_or] at hi
    rw [h'.kept i (mt (htail i hi.1).mp hi.2), h.kept i hi.1]
  · intro i hi
    rw [hcons] at hi
    by_cases hp : GoesWith s [p] i
    · have h1 := h.gone i hp
      by_cases hl : GoesWith s₁ l i
      · rw [h'.gone i hl, h1]
      · rw [h'.kept i hl, h1]
    · have hl := (htail i hp).mpr (hi.resolve_left hp)
      rw [h'.gone i hl, h.kept i hp]

/-- The state after uop `nr` is made invalid and its references are gone. -/
def unreferenced (s : RegState) (nr : Nat) : RegState :=
  dropSource (s.uops nr).src_reg_c <| dropSource (s.uops nr).src_reg_b <|
    dropSource (s.uops nr).src_reg_a <|
      { s with uops := Function.update s.uops nr { s.uops nr with type := UOP_INVALID } }

def setDead (reg : IReg) (version : Nat) (s : RegState) : RegState :=
  setVersion reg version { s.reg_version reg version with dead := true } s

theorem unreferenced_uops (s : RegState) (nr : Nat) :
    (unreferenced s nr).uops =
      Function.update s.uops nr { s.uops nr with type := UOP_INVALID } := by
  unfold unreferenced
  rw [dropSource_uops, dropSource_uops, dropSource_uops]

theorem unreferenced_version (s : RegState) (nr : Nat) (r : IReg) (v : Nat) :
    ((unreferenced s nr).reg_version r v).parent_uop = (s.reg_version r v).parent_uop ∧
    ((∀ ir, (s.uops nr).HasSource ir → (ir.reg, ir.version) ≠ (r, v)) →
      ((unreferenced s nr).reg_version r v).next = (s.reg_version r v).next) := by
  unfold unreferenced
  constructor
  · rw [(dropSource_version _ _ r v).1, (dropSource_version _ _ r v).1,
      (dropSource_version _ _ r v).1]
  · intro hne
    rw [(dropSource_version _ _ r v).2 fun ir h => hne ir (Or.inr (Or.inr h)),
      (dropSource_version _ _ r v).2 fun ir h => hne ir (Or.inr (Or.inl h)),
      (dropSource_version _ _ r v).2 fun ir h => hne ir (Or.inl h)]

theorem setDead_version (reg : IReg) (version : Nat) (s : RegState) (r : IReg) (v : Nat) :
    ((setDead reg version s).reg_version r v).parent_uop = (s.reg_version r v).parent_uop ∧
    ((setDead reg version s).reg_version r v).next = (s.reg_version r v).next := by
  unfold setDead
  by_cases hne : r ≠ reg ∨ v ≠ version
  · rw [setVersion_of_ne _ _ hne]
    exact ⟨rfl, rfl⟩
  · obtain ⟨rfl, rfl⟩ : r = reg ∧ v = version := by
      rwa [not_or, not_not, not_not] at hne
    rw [setVersion_self]
    exact ⟨rfl, rfl⟩

theorem removeDead_of_barrier {p : IReg × Nat} {s : RegState}
    (h : isBarrier (s.uops (parentOf s p)).type = true) :
    removeDead p.1 p.2 s = { s with reg_dead_list := nextDead s p } := by
  unfold parentOf at h
  simp only [removeDead, h, if_true]
  rfl

theorem removeDead_of_not_barrier {p : IReg × Nat} {s : RegState}
    (h : isBarrier (s.uops (parentOf s p)).type = false) :
    removeDead p.1 p.2 s =
      { setDead p.1 p.2 (unreferenced s (parentOf s p)) with
        reg_dead_list := nextDead (setDead p.1 p.2 (unreferenced s (parentOf s p))) p } := by
  unfold parentOf at h
  simp only [removeDead, h, Bool.false_eq_true, if_false]
  rfl

/-- The loop body removes the uop at the head, and goes to the next in the list. -/
theorem removeDead_step {p : IReg × Nat} {l : List (IReg × Nat)} {s : RegState}
    (hr : ReadsNone s (p :: l) p) :
    Removal [p] s (removeDead p.1 p.2 s) ∧
    (removeDead p.1 p.2 s).reg_dead_list = nextDead s p ∧
    ∀ q ∈ l, nextDead (removeDead p.1 p.2 s) q = nextDead s q := by
  have hone : ∀ i, GoesWith s [p] i ↔ i = parentOf s p ∧
      isBarrier (s.uops (parentOf s p)).type = false := by
    intro i
    unfold GoesWith
    simp only [List.mem_singleton, exists_eq_left]
    constructor
    · rintro ⟨rfl, h⟩
      exact ⟨rfl, h⟩
    · rintro ⟨rfl, h⟩
      exact ⟨rfl, h⟩
  by_cases hb : isBarrier (s.uops (parentOf s p)).type = true
  · rw [removeDead_of_barrier hb]
    have hno : ∀ i, ¬GoesWith s [p] i := by
      intro i hi
      rw [hone, hb] at hi
      exact absurd hi.2 (by simp)
    exact ⟨⟨fun _ => rfl, fun _ _ => rfl, fun i hi => absurd hi (hno i)⟩, rfl, fun _ _ => rfl⟩
  · rw [Bool.not_eq_true] at hb
    rw [removeDead_of_not_barrier hb]
    have hnext : ∀ q ∈ p :: l, nextDead (unreferenced s (parentOf s p)) q = nextDead s q := by
      intro q hq
      apply (unreferenced_version s (parentOf s p) q.1 q.2).2
      intro ir hir he
      apply hr ir hir
      rw [he]
      exact hq
    -- Setting the dead flag keeps all that matters.
    have hflag := setDead_version p.1 p.2 (unreferenced s (parentOf s p))
    refine ⟨⟨?_, ?_, ?_⟩, ?_, ?_⟩
    · intro q
      exact (hflag q.1 q.2).1.trans (unreferenced_version s (parentOf s p) q.1 q.2).1
    · intro i hi
      rw [hone] at hi
      have hne : i ≠ parentOf s p := fun h => hi ⟨h, hb⟩
      exact (congrFun (unreferenced_uops s _) i).trans (Function.update_of_ne hne _ _)
    · intro i hi
      obtain ⟨rfl, -⟩ := (hone i).mp hi
      exact (congrFun (unreferenced_uops s _) _).trans (Function.update_self _ _ _)
    · exact (hflag p.1 p.2).2.trans (hnext p List.mem_cons_self)
    · intro q hq
      exact (hflag q.1 q.2).2.trans (hnext q (List.mem_cons_of_mem _ hq))

/-- The loop ends, and removes the uops that wrote the versions in the list. -/
theorem processLoop_removal {l : List (IReg × Nat)} {fuel : Nat} {s : RegState}
    (hlen : l.length ≤ fuel) (hw : Walk (nextDead s) s.reg_dead_list l)
    (hr : ∀ p ∈ l, ReadsNone s l p) : ∃ s', processLoop fuel s = some s' ∧ Removal l s s' := by
  induction l generalizing fuel s with
  | nil =>
    have hnil : s.reg_dead_list = none := hw
    refine ⟨s, ?_, fun _ => rfl, fun _ _ => rfl, ?_⟩
    · unfold processLoop
      rw [hnil]
    · rintro i ⟨⟨p, hp, -⟩, -⟩
      exact absurd hp List.not_mem_nil
  | cons p l ih =>
    obtain ⟨hhead, hw⟩ := hw
    obtain ⟨hrem, hlist, hnext⟩ := removeDead_step (hr p List.mem_cons_self)
    obtain ⟨n, rfl⟩ : ∃ n, fuel = n + 1 := by
      rw [List.length_cons] at hlen
      exact ⟨fuel - 1, by omega⟩
    have hw' : Walk (nextDead (removeDead p.1 p.2 s)) (removeDead p.1 p.2 s).reg_dead_list l := by
      rw [hlist]
      exact walk_congr hnext hw
    have hr' : ∀ q ∈ l, ReadsNone (removeDead p.1 p.2 s) l q := by
      intro q hq ir hir hm
      rw [hrem.parent, hrem.hasSource] at hir
      exact hr q (List.mem_cons_of_mem _ hq) ir hir (List.mem_cons_of_mem _ hm)
    obtain ⟨s', hs', hrem'⟩ := ih (Nat.le_of_succ_le_succ hlen) hw' hr'
    refine ⟨s', ?_, hrem.trans hrem'⟩
    unfold processLoop
    rw [hhead]
    exact hs'

/-! ## The whole removal -/

section

variable {us : List UopCall} {s s₁ s₂ : RegState}

theorem mark_version (s : RegState) (r : IReg) (v : Nat) :
    ((codegen_reg_mark_as_required s).reg_version r v).parent_uop =
      (s.reg_version r v).parent_uop ∧
    ((codegen_reg_mark_as_required s).reg_version r v).next = (s.reg_version r v).next := by
  unfold codegen_reg_mark_as_required
  dsimp only
  split
  · exact ⟨rfl, rfl⟩
  · exact ⟨rfl, rfl⟩

/-- A list of versions is not longer than the table of the versions. -/
theorem entries_length {l : List (IReg × Nat)} (hnodup : l.Nodup) (hbelow : ∀ p ∈ l, p.2 ≤ 255) :
    l.length ≤ 94 * 256 := by
  have hsub : l.toFinset ⊆ (Finset.univ : Finset IReg) ×ˢ Finset.range 256 := by
    intro p hp
    have hle := hbelow p (List.mem_toFinset.mp hp)
    rw [Finset.mem_product, Finset.mem_range]
    exact ⟨Finset.mem_univ _, by omega⟩
  have hcard := Finset.card_le_card hsub
  rw [List.toFinset_card_of_nodup hnodup, Finset.card_product, Finset.card_range,
    Finset.card_univ, Fintype.card_fin] at hcard
  exact hcard

theorem deadList_length (hi : Inv us s) {l : List (IReg × Nat)} (hl : DeadList us s l) :
    l.length ≤ 94 * 256 :=
  entries_length hl.nodup fun p hp => Nat.le_trans (hl.below p hp).2.le (hi.bound p.1)

/-- What a dead uop wrote has no reader, and a reader has sources that are not dead. -/
theorem deadList_reads (hi : Inv us s) {l : List (IReg × Nat)} (hl : DeadList us s l)
    {i : Nat} (hlt : i < us.length) {ir : IrReg} (hir : (s.uops i).HasSource ir) :
    (ir.reg, ir.version) ∉ l := fun hm => (hi.source i hlt ir hir).2 (hl.refcount _ hm)

theorem process_removal (hi : Inv us s) {l : List (IReg × Nat)} (hl : DeadList us s l) :
    ∃ s', codegen_reg_process_dead_list (codegen_reg_mark_as_required s) = some s' ∧
      Removal l s s' := by
  have hparent : ∀ p, parentOf (codegen_reg_mark_as_required s) p = parentOf s p :=
    fun p => (mark_version s p.1 p.2).1
  have hw : Walk (nextDead (codegen_reg_mark_as_required s))
      (codegen_reg_mark_as_required s).reg_dead_list l :=
    walk_congr (fun p _ => (mark_version s p.1 p.2).2) hl.walk
  have hr : ∀ p ∈ l, ReadsNone (codegen_reg_mark_as_required s) l p := by
    intro p hp ir hir
    rw [hparent] at hir
    have hlt : parentOf s p < us.length :=
      (hi.written p.1 p.2 (hl.below p hp).1 (Nat.le_of_lt (hl.below p hp).2)).1
    exact deadList_reads hi hl hlt hir
  obtain ⟨s', hs', hrem⟩ := processLoop_removal (deadList_length hi hl) hw hr
  have hgoes : ∀ i, GoesWith (codegen_reg_mark_as_required s) l i ↔ GoesWith s l i := by
    intro i
    unfold GoesWith
    simp only [hparent]
    exact Iff.rfl
  refine ⟨s', hs', fun p => (hrem.parent p).trans (hparent p), ?_, ?_⟩
  · intro i hg
    exact hrem.kept i (mt (hgoes i).mp hg)
  · intro i hg
    exact hrem.gone i ((hgoes i).mpr hg)

/-- A uop is removed if it wrote a dead version and is not a barrier. -/
theorem invalid_iff (hi : Inv us s) {l : List (IReg × Nat)} (hl : DeadList us s l)
    (hrem : Removal l s s₂) {i : Nat} (hlt : i < us.length) :
    (s₂.uops i).type = UOP_INVALID ↔
      (∃ r w, DeadAt us r i w) ∧ At us i fun u => ¬IsBarrier u := by
  have hu : us[i]? = some us[i] := List.getElem?_eq_getElem hlt
  have htype := hi.type i us[i] hu
  have hat : (At us i fun u => ¬IsBarrier u) ↔ isBarrier (s.uops i).type = false := by
    unfold At IsBarrier
    rw [htype, hu, ← Bool.not_eq_true]
    simp
  have hdead : (∃ p ∈ l, parentOf s p = i) ↔ ∃ r w, DeadAt us r i w := by
    constructor
    · rintro ⟨p, hp, rfl⟩
      exact ⟨p.1, _, hl.dead p hp⟩
    · rintro ⟨r, w, hd⟩
      obtain ⟨v, hv, he⟩ := hl.complete r i w hd
      exact ⟨(r, v), hv, he⟩
  rw [hat, ← hdead]
  by_cases hg : GoesWith s l i
  · rw [hrem.gone i hg]
    exact ⟨fun _ => hg, fun _ => rfl⟩
  · rw [hrem.kept i hg]
    exact ⟨fun h => absurd (htype.symm.trans h) us[i].valid, fun h => absurd h hg⟩

/-! ## What barriers and the end of the block see -/

/-- Uop `j` is the last one before `k` that writes `r`. -/
structure LastWriter (us : List UopCall) (r : IReg) (k j : Nat) : Prop where
  lt : j < k
  writes : At us j (·.Writes r)
  last : ∀ i, j < i → i < k → ¬At us i (·.Writes r)

/-- A uop reads its sources, and the version before the one that it writes a part of. -/
def Uop.NeedsVersion (uop : Uop) (r : IReg) (v : Nat) : Prop :=
  (∃ ir, uop.HasSource ir ∧ ir.reg = r ∧ ir.version = v) ∨
    ∃ ir, uop.dest_reg_a = some ir ∧ ir.reg = r ∧ ir.version = v + 1 ∧
      reg_is_native_size ir.toOperand = false

/-- The block after the removal does what it did before. -/
structure Sound (us : List UopCall) (s : RegState) : Prop where
  barriers : ∀ r k j, is_volatile r = Volatility.REG_PERMANENT → k < us.length →
    isBarrier (s.uops k).type = true → LastWriter us r k j → (s.uops j).type ≠ UOP_INVALID
  exit : ∀ r j, is_volatile r = Volatility.REG_PERMANENT → LastWriter us r us.length j →
    (s.uops j).type ≠ UOP_INVALID
  reads : ∀ i j, i < us.length → j < us.length → (s.uops i).type ≠ UOP_INVALID →
    (s.uops j).type = UOP_INVALID → ∀ ir, (s.uops j).dest_reg_a = some ir →
      ¬(s.uops i).NeedsVersion ir.reg ir.version

/-- A write that no one reads, to a register that stands after the temporaries. It is
overwritten as a whole, and a barrier stands before that or does it. -/
structure Forgotten (us : List UopCall) (r : IReg) (j w : Nat) : Prop where
  beyond : r ≥ IREG_fpu_op
  first : At us j fun u => u.Writes r ∧ ¬IsBarrier u
  second : At us w (·.WritesNative r)
  no_write : ∀ i, j < i → i < w → ¬At us i (·.Writes r)
  no_read : ∀ i, j < i → i ≤ w → ¬At us i (·.Reads r)
  barrier : ∃ k, j < k ∧ k ≤ w ∧ At us k IsBarrier

theorem permanent_cases (r : IReg) :
    is_volatile r = Volatility.REG_PERMANENT ↔ r < IREG_temp0 ∨ r ≥ IREG_fpu_op := by
  revert r
  decide

theorem fpu_op_beyond {r : IReg} (h : r ≥ IREG_fpu_op) : r > IREG_EBX ∧ ¬r < IREG_temp0 := by
  revert r
  decide

theorem Forgotten.deadAt {r : IReg} {j w : Nat} (h : Forgotten us r j w) :
    DeadAt us r j w ∧ At us j fun u => ¬IsBarrier u := by
  obtain ⟨u, hu, hw, hb⟩ := h.first
  obtain ⟨k, h1, h2, -⟩ := h.barrier
  obtain ⟨habove, hbeyond⟩ := fpu_op_beyond h.beyond
  exact ⟨⟨habove, Nat.lt_of_lt_of_le h1 h2, ⟨u, hu, hw⟩, h.second, h.no_write, h.no_read,
    fun hn => hbeyond hn.1⟩, u, hu, hb⟩

theorem At.writes_unique {i : Nat} {r r' : IReg} (h : At us i (·.Writes r))
    (h' : At us i (·.Writes r')) : r = r' := by
  obtain ⟨u, hu, op, hop, rfl⟩ := h
  obtain ⟨u', hu', op', hop', rfl⟩ := h'
  rw [hu] at hu'
  obtain rfl := Option.some.inj hu'
  rw [hop] at hop'
  rw [Option.some.inj hop']

theorem WritesNative.writes {w : Nat} {r : IReg} (h : At us w (·.WritesNative r)) :
    At us w (·.Writes r) := by
  obtain ⟨u, hu, op, hop, hr, -⟩ := h
  exact ⟨u, hu, op, hop, hr⟩

/-- A dead uop is followed by the write that it gives way to. -/
theorem LastWriter.of_dead {r r' : IReg} {k j w : Nat} (h : LastWriter us r k j)
    (hd : DeadAt us r' j w) : r' = r ∧ k ≤ w := by
  obtain rfl := At.writes_unique hd.first h.writes
  refine ⟨rfl, ?_⟩
  by_contra hlt
  exact h.last w hd.lt (by omega) (WritesNative.writes hd.second)

theorem reads_kept (hi : Inv us s) {l : List (IReg × Nat)} (hl : DeadList us s l)
    (hrem : Removal l s s₂) {i j : Nat} (hlt : i < us.length) (hj : j < us.length)
    (hdead : (s₂.uops j).type = UOP_INVALID) {ir : IrReg}
    (hdest : (s₂.uops j).dest_reg_a = some ir) : ¬(s₂.uops i).NeedsVersion ir.reg ir.version := by
  rw [hrem.dest] at hdest
  obtain ⟨⟨r, w, hd⟩, -⟩ := (invalid_iff hi hl hrem hj).mp hdead
  obtain ⟨v, hv, hp⟩ := hl.complete r j w hd
  have hbelow := hl.below _ hv
  -- The dead version is the one that uop `j` wrote.
  obtain ⟨-, ir', h1, h2, h3⟩ := hi.written r v hbelow.1 (Nat.le_of_lt hbelow.2)
  rw [hp, hdest] at h1
  obtain rfl := Option.some.inj h1
  subst h2 h3
  rintro (⟨src, hsrc, h4, h5⟩ | ⟨next, hnext, h4, h5, hpart⟩)
  · rw [hrem.hasSource] at hsrc
    apply deadList_reads hi hl hlt hsrc
    rw [h4, h5]
    exact hv
  · rw [hrem.dest] at hnext
    obtain ⟨-, -, hparent, u, hu, hu2⟩ := hi.dest i hlt next hnext
    rw [h4, h5] at hparent
    obtain ⟨u', hu', op, hop, -, hnative⟩ := (hl.dead _ hv).second
    rw [hparent, hu] at hu'
    obtain rfl := Option.some.inj hu'
    rw [hu2] at hop
    rw [Option.some.inj hop, hnative] at hpart
    exact absurd hpart (by simp)

/-- The barriers see every write unless one is forgotten, and nothing else goes wrong. -/
theorem barriers_see_unless_forgotten (hfresh : Fresh s) (hbuild : build us s = some s₁) :
    ∃ s₂, codegen_reg_process_dead_list (codegen_reg_mark_as_required s₁) = some s₂ ∧
      (Sound us s₂ ↔ ∀ r j w, ¬Forgotten us r j w) := by
  have hi : Inv us s₁ := by
    have := build_inv (fresh_inv hfresh) hbuild
    rwa [List.nil_append] at this
  obtain ⟨l, hl⟩ := hi.dead
  obtain ⟨s₂, hs₂, hrem⟩ := process_removal hi hl
  have hinvalid : ∀ {i}, i < us.length → ((s₂.uops i).type = UOP_INVALID ↔
      (∃ r w, DeadAt us r i w) ∧ At us i fun u => ¬IsBarrier u) := invalid_iff hi hl hrem
  have hbarrier : ∀ {k}, k < us.length →
      (isBarrier (s₂.uops k).type = true ↔ At us k IsBarrier) := by
    intro k hk
    have hu : us[k]? = some us[k] := List.getElem?_eq_getElem hk
    have hat : At us k IsBarrier ↔ isBarrier us[k].type = true := by
      unfold At IsBarrier
      rw [hu]
      simp
    rw [hat]
    by_cases hg : GoesWith s₁ l k
    · rw [hrem.gone k hg, UOP_INVALID_not_barrier, ← hi.type k us[k] hu, hg.2]
    · rw [hrem.kept k hg, hi.type k us[k] hu]
  refine ⟨s₂, hs₂, ?_, ?_⟩
  · intro hsound r j w hf
    obtain ⟨hd, hb⟩ := hf.deadAt
    obtain ⟨k, h1, h2, hk⟩ := hf.barrier
    apply hsound.barriers r k j ((permanent_cases r).mpr (Or.inr hf.beyond)) hk.lt
      ((hbarrier hk.lt).mpr hk)
    · refine ⟨h1, hd.first, ?_⟩
      intro i hi1 hi2
      exact hf.no_write i hi1 (by omega)
    · exact (hinvalid hd.first.lt).mpr ⟨⟨r, w, hd⟩, hb⟩
  · intro hno
    refine ⟨?_, ?_, ?_⟩
    · intro r k j hperm hk hb hlast hgone
      obtain ⟨⟨r', w, hd⟩, u, hu, hnb⟩ := (hinvalid hlast.writes.lt).mp hgone
      obtain ⟨rfl, hkw⟩ := hlast.of_dead hd
      have hbk := (hbarrier hk).mp hb
      rcases (permanent_cases r').mp hperm with hlow | hhigh
      · exact hd.no_need ⟨hlow, k, hlast.lt, hkw, hbk⟩
      · obtain ⟨u', hu', hw⟩ := hd.first
        rw [hu] at hu'
        obtain rfl := Option.some.inj hu'
        exact hno r' j w ⟨hhigh, ⟨u, hu, hw, hnb⟩, hd.second, hd.no_write, hd.no_read, k,
          hlast.lt, hkw, hbk⟩
    · intro r j _ hlast hgone
      obtain ⟨⟨r', w, hd⟩, -⟩ := (hinvalid hlast.writes.lt).mp hgone
      obtain ⟨-, hle⟩ := hlast.of_dead hd
      have := hd.second.lt
      omega
    · intro i j hlt hj _ hgone ir hdest
      exact reads_kept hi hl hrem hlt hj hgone hdest

end

def UOP_CALL_FUNC : BitVec 32 := 1 <<< 29 ||| 0x10 ||| UOP_TYPE_BARRIER

def UOP_MOV_IMM : BitVec 32 := 1 <<< 28 ||| 1 <<< 30 ||| 0x21

def uop_CALL_FUNC : UopCall := ⟨UOP_CALL_FUNC, by decide, none, none, none, none⟩

def uop_MOV_IMM (reg : IReg) : UopCall :=
  ⟨UOP_MOV_IMM, by decide, some ⟨reg, IRegSize.IREG_SIZE_L⟩, none, none, none⟩

/-- A new block over tables of zeros. -/
def emptyBlock : RegState where
  reg_last_version _ := 0
  reg_version _ _ := ⟨0, false, false, 0, none⟩
  dirty_ir_regs _ := false
  reg_dead_list := none
  uops _ := ⟨UOP_INVALID, none, none, none, none⟩
  wr_pos := 0

theorem emptyBlock_fresh : Fresh emptyBlock :=
  ⟨fun _ => rfl, fun _ => rfl, fun _ => rfl, rfl, rfl⟩

/-- Without a barrier nothing is forgotten. -/
theorem two_writes_are_seen : ∃ s₁ s₂,
    build [uop_MOV_IMM IREG_fpu_pc, uop_MOV_IMM IREG_fpu_pc] emptyBlock = some s₁ ∧
    codegen_reg_process_dead_list (codegen_reg_mark_as_required s₁) = some s₂ ∧
    Sound [uop_MOV_IMM IREG_fpu_pc, uop_MOV_IMM IREG_fpu_pc] s₂ := by
  have hsome : (build [uop_MOV_IMM IREG_fpu_pc, uop_MOV_IMM IREG_fpu_pc] emptyBlock).isSome := rfl
  obtain ⟨s₁, hs₁⟩ := Option.isSome_iff_exists.mp hsome
  obtain ⟨s₂, hs₂, hsound⟩ := barriers_see_unless_forgotten emptyBlock_fresh hs₁
  refine ⟨s₁, s₂, hs₁, hs₂, hsound.mpr ?_⟩
  intro r j w hf
  obtain ⟨k, -, -, u, hu, hb⟩ := hf.barrier
  have hm := List.mem_of_getElem? hu
  simp only [List.mem_cons, List.not_mem_nil, or_false, or_self] at hm
  subst hm
  have hno : isBarrier (uop_MOV_IMM IREG_fpu_pc).type = false := by decide
  unfold IsBarrier at hb
  rw [hno] at hb
  exact absurd hb (by simp)

/-- `fpu_postamble` is called before the program counter of the FPU is stored. -/
theorem the_call_misses_a_forgotten_write : ∃ s₁ s₂, Fresh emptyBlock ∧
    build [uop_MOV_IMM IREG_fpu_pc, uop_CALL_FUNC, uop_MOV_IMM IREG_fpu_pc] emptyBlock = some s₁ ∧
    codegen_reg_process_dead_list (codegen_reg_mark_as_required s₁) = some s₂ ∧
    ¬Sound [uop_MOV_IMM IREG_fpu_pc, uop_CALL_FUNC, uop_MOV_IMM IREG_fpu_pc] s₂ := by
  have hrun : ((build [uop_MOV_IMM IREG_fpu_pc, uop_CALL_FUNC, uop_MOV_IMM IREG_fpu_pc]
      emptyBlock).bind fun s₁ =>
        (codegen_reg_process_dead_list (codegen_reg_mark_as_required s₁)).map fun s₂ =>
          ((s₂.uops 0).type, (s₂.uops 1).type)) = some (UOP_INVALID, UOP_CALL_FUNC) := by rfl
  obtain ⟨s₁, hs₁, hrun⟩ := Option.bind_eq_some_iff.mp hrun
  obtain ⟨s₂, hs₂, htypes⟩ := Option.map_eq_some_iff.mp hrun
  obtain ⟨h0, h1⟩ := Prod.mk.inj htypes
  refine ⟨s₁, s₂, emptyBlock_fresh, hs₁, hs₂, fun hsound => ?_⟩
  apply hsound.barriers IREG_fpu_pc 1 0 (by decide) (by decide) (by rw [h1]; decide) _ h0
  refine ⟨Nat.zero_lt_one, ⟨_, rfl, _, rfl, rfl⟩, ?_⟩
  intro i hi1 hi2
  omega

end blumach.codegen_reg
