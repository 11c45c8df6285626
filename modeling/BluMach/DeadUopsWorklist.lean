-- The dead list as a worklist. A uop that goes may leave a version without readers, and
-- that version is put in the list too; but the loop then goes on from the entry that it
-- was at, and what was put in is never looked at.
import BluMach.DeadUopsLaws
import Mathlib.Algebra.Order.BigOperators.Group.Finset
import Mathlib.Tactic.SplitIfs

namespace blumach.codegen_reg

open linked_list

/-! ## How often a version is read -/

def IrReg.place (ir : IrReg) : IReg × Nat := (ir.reg, ir.version)

def refsOf (src : Option IrReg) (p : IReg × Nat) : Nat :=
    if src.map IrReg.place = some p then 1 else 0

def Uop.refs (uop : Uop) (p : IReg × Nat) : Nat :=
  refsOf uop.src_reg_a p + refsOf uop.src_reg_b p + refsOf uop.src_reg_c p

/-- The references of uop `i`, if it is still there. -/
def liveRefs (s : RegState) (p : IReg × Nat) (i : Nat) : Nat :=
  if (s.uops i).type = UOP_INVALID then 0 else (s.uops i).refs p

def readersOf (s : RegState) (p : IReg × Nat) : Nat := ∑ i ∈ Finset.range s.wr_pos, liveRefs s p i

def countOf (s : RegState) (p : IReg × Nat) : Nat := (s.reg_version p.1 p.2).refcount

/-- The count of each version is the number of its readers, and fits its byte. -/
def Counted (s : RegState) : Prop :=
  ∀ p : IReg × Nat, p.2 ≤ s.reg_last_version p.1 → countOf s p = readersOf s p ∧ countOf s p ≤ 255

theorem refsOf_pos {src : Option IrReg} {p : IReg × Nat} :
    0 < refsOf src p ↔ ∃ ir, src = some ir ∧ ir.place = p := by
  unfold refsOf
  cases src with
  | none => simp
  | some ir =>
    split_ifs with h
    · exact ⟨fun _ => ⟨ir, rfl, Option.some.inj h⟩, fun _ => Nat.one_pos⟩
    · refine ⟨fun h0 => absurd h0 (Nat.lt_irrefl 0), ?_⟩
      rintro ⟨ir', hir, rfl⟩
      obtain rfl := Option.some.inj hir
      exact absurd rfl h

theorem refs_pos {uop : Uop} {p : IReg × Nat} :
    0 < uop.refs p ↔ ∃ ir, uop.HasSource ir ∧ ir.place = p := by
  unfold Uop.refs Uop.HasSource
  constructor
  · intro h
    have hone : 0 < refsOf uop.src_reg_a p ∨ 0 < refsOf uop.src_reg_b p ∨
        0 < refsOf uop.src_reg_c p := by omega
    rcases hone with h | h | h
    · obtain ⟨ir, hir, hp⟩ := refsOf_pos.mp h
      exact ⟨ir, Or.inl hir, hp⟩
    · obtain ⟨ir, hir, hp⟩ := refsOf_pos.mp h
      exact ⟨ir, Or.inr (Or.inl hir), hp⟩
    · obtain ⟨ir, hir, hp⟩ := refsOf_pos.mp h
      exact ⟨ir, Or.inr (Or.inr hir), hp⟩
  · rintro ⟨ir, hir | hir | hir, hp⟩
    · have hpos := refsOf_pos.mpr ⟨ir, hir, hp⟩
      omega
    · have hpos := refsOf_pos.mpr ⟨ir, hir, hp⟩
      omega
    · have hpos := refsOf_pos.mpr ⟨ir, hir, hp⟩
      omega

theorem readersOf_pos {s : RegState} {p : IReg × Nat} :
    0 < readersOf s p ↔ ∃ i < s.wr_pos, (s.uops i).type ≠ UOP_INVALID ∧
      ∃ ir, (s.uops i).HasSource ir ∧ ir.place = p := by
  unfold readersOf
  rw [Finset.sum_pos_iff]
  constructor
  · rintro ⟨i, hi, hpos⟩
    unfold liveRefs at hpos
    split_ifs at hpos with htype
    · exact absurd hpos (Nat.lt_irrefl 0)
    · exact ⟨i, Finset.mem_range.mp hi, htype, refs_pos.mp hpos⟩
  · rintro ⟨i, hi, htype, hsource⟩
    refine ⟨i, Finset.mem_range.mpr hi, ?_⟩
    unfold liveRefs
    rw [if_neg htype]
    exact refs_pos.mpr hsource

/-! ## The counts of a block that is built -/

section

variable {us : List UopCall} {u : UopCall} {s s' : RegState}

def UopCall.readCount (u : UopCall) (r : IReg) : Nat :=
  codegen_reg.readCount u.src_a r + codegen_reg.readCount u.src_b r +
    codegen_reg.readCount u.src_c r

theorem read_small {op : Option Operand} {ir : Option IrReg} (h : readOpt op s = some (s', ir))
    (hs : ∀ r, countOf s (r, s.reg_last_version r) ≤ 255) (r : IReg) :
    countOf s' (r, s'.reg_last_version r) ≤ 255 := by
  obtain ⟨hstep, -⟩ := readOpt_step h
  have hcount := hstep.refcount r
  unfold countOf at hs ⊢
  rw [hstep.reg_last_version, hcount]
  cases op with
  | none => exact hs r
  | some op =>
    by_cases hr : op.reg = r
    · subst hr
      unfold readOpt codegen_reg_read at h
      dsimp only at h
      split_ifs at h with hmax
      · cases h
      · have hle : (s.reg_version op.reg (s.reg_last_version op.reg)).refcount ≤ 255 := hs op.reg
        have hone : readCount (some op) op.reg = 1 := if_pos rfl
        omega
    · simp only [readCount, Option.map_some, Option.some.injEq, hr, if_false]
      exact hs r

/-- What a uop adds to the counts of the last versions. -/
theorem gen_refcount (hb : ∀ r, s.reg_last_version r ≤ 255) (h : uop_gen u s = some s')
    (hs : ∀ r, countOf s (r, s.reg_last_version r) ≤ 255) (r : IReg) :
    countOf s' (r, s.reg_last_version r) = countOf s (r, s.reg_last_version r) + u.readCount r ∧
      countOf s' (r, s.reg_last_version r) ≤ 255 := by
  simp only [uop_gen, Option.bind_eq_some_iff] at h
  obtain ⟨s₁, h1, ⟨s₂, a⟩, ha, ⟨s₃, b⟩, hb', ⟨s₄, c⟩, hc, ⟨s₅, d⟩, hd, hs'⟩ := h
  obtain ⟨hs₁, -, -⟩ := reads_step h1 ha hb' hc
  have hk := ((readOpt_step ha).1.trans (readOpt_step hb').1).trans (readOpt_step hc).1
  have hl : s₁.reg_last_version = s.reg_last_version := by rw [hs₁]
  have hv : s₁.reg_version = s.reg_version := by rw [hs₁]
  have hsmall₁ : ∀ r, countOf s₁ (r, s₁.reg_last_version r) ≤ 255 := by
    intro r
    unfold countOf
    rw [hl, hv]
    exact hs r
  have hsmall := read_small hc (read_small hb' (read_small ha hsmall₁)) r
  have hcount := hk.refcount r
  rw [hl, hv] at hcount
  have hl4 : s₄.reg_last_version = s.reg_last_version := hk.reg_last_version.trans hl
  rw [hl4] at hsmall
  have hkept : countOf s₅ (r, s.reg_last_version r) = countOf s₄ (r, s.reg_last_version r) := by
    cases hdest : u.dest with
    | none =>
      rw [hdest] at hd
      obtain ⟨rfl, -⟩ := Prod.mk.inj (Option.some.inj hd)
      rfl
    | some op =>
      rw [hdest] at hd
      simp only [writeOpt, Option.map_eq_some_iff, Prod.mk.injEq] at hd
      obtain ⟨⟨s₆, ir⟩, hd, rfl, -⟩ := hd
      obtain ⟨hw, -⟩ := write_step (by rw [hl4]; exact hb _) hd
      unfold countOf
      by_cases hr : r = op.reg
      · subst hr
        rw [← hl4]
        exact hw.old.1
      · rw [hw.other r _ (Or.inl hr)]
  obtain rfl := Option.some.inj hs'
  exact ⟨hkept.trans hcount, hkept.trans_le hsmall⟩

theorem refs_uopOf (u : UopCall) (s : RegState) (p : IReg × Nat) :
    (uopOf u s).refs p = if p.2 = s.reg_last_version p.1 then u.readCount p.1 else 0 := by
  have hone : ∀ op : Option Operand,
      refsOf (op.map fun op => ⟨op, s.reg_last_version op.reg⟩) p =
        if p.2 = s.reg_last_version p.1 then readCount op p.1 else 0 := by
    intro op
    obtain ⟨r, v⟩ := p
    unfold refsOf readCount
    cases op with
    | none => simp
    | some op =>
      simp only [Option.map_some, IrReg.place, Option.some.injEq, Prod.mk.injEq]
      by_cases hr : op.reg = r
      · subst hr
        simp only [true_and, if_true, eq_comm]
      · simp only [hr, false_and, if_false, ite_self]
  unfold Uop.refs UopCall.readCount uopOf
  rw [hone, hone, hone]
  split_ifs <;> rfl

theorem fresh_counted (h : Fresh s) : Counted s := by
  intro p hp
  rw [h.reg_last_version] at hp
  have hcount : countOf s p = 0 := by
    unfold countOf
    rw [Nat.le_zero.mp hp]
    exact h.refcount p.1
  unfold readersOf
  rw [hcount, h.wr_pos]
  exact ⟨rfl, Nat.zero_le _⟩

theorem gen_counted (hi : Inv us s) (hc : Counted s) (h : uop_gen u s = some s') : Counted s' := by
  have hg := gen_step hi.bound hi.required h
  have hlast : ∀ r, countOf s (r, s.reg_last_version r) ≤ 255 :=
    fun r => (hc (r, s.reg_last_version r) (Nat.le_refl _)).2
  have hreaders : ∀ p, readersOf s' p = readersOf s p +
      if p.2 = s.reg_last_version p.1 then u.readCount p.1 else 0 := by
    intro p
    unfold readersOf
    rw [hg.wr_pos, Finset.sum_range_succ]
    have hnew : s'.uops s.wr_pos = uopOf u s := by rw [hg.uops, Function.update_self]
    have hvalid : (uopOf u s).type ≠ UOP_INVALID := u.valid
    congr 1
    · refine Finset.sum_congr rfl fun i hlt => ?_
      have hne : i ≠ s.wr_pos := (Finset.mem_range.mp hlt).ne
      unfold liveRefs
      rw [hg.uops, Function.update_of_ne hne]
    · unfold liveRefs
      rw [hnew, if_neg hvalid, refs_uopOf]
  intro p hp
  obtain ⟨r, v⟩ := p
  rw [hreaders]
  dsimp only at hp ⊢
  rcases Nat.lt_trichotomy v (s.reg_last_version r) with hlt | rfl | hlt
  · have hsame : countOf s' (r, v) = countOf s (r, v) := by
      unfold countOf
      rw [hg.old r v hlt]
    rw [if_neg hlt.ne, hsame]
    exact hc (r, v) hlt.le
  · obtain ⟨hcount, hsmall⟩ := gen_refcount hi.bound h hlast r
    rw [if_pos rfl, ← (hc (r, s.reg_last_version r) (Nat.le_refl _)).1]
    exact ⟨hcount, hsmall⟩
  · have hw : u.Writes r := by
      by_contra hw
      rw [(hg.keep r hw).1] at hp
      omega
    obtain ⟨-, hl, -, hzero, -⟩ := hg.write r hw
    have hv : v = s.reg_last_version r + 1 := by omega
    have hnone : readersOf s (r, v) = 0 := by
      by_contra hpos
      obtain ⟨i, hlt', -, ir, hir, hplace⟩ := readersOf_pos.mp (Nat.pos_of_ne_zero hpos)
      rw [hi.wr_pos] at hlt'
      have hle := (hi.source i hlt' ir hir).1
      obtain ⟨rfl, rfl⟩ := Prod.mk.inj hplace
      omega
    have hcount : countOf s' (r, v) = 0 := by
      unfold countOf
      rw [hv]
      exact hzero
    rw [if_neg hlt.ne', hnone, hcount]
    exact ⟨rfl, Nat.zero_le _⟩

theorem build_counted {us' : List UopCall} (hi : Inv us s) (hc : Counted s)
    (h : build us' s = some s') : Counted s' := by
  induction us' generalizing us s with
  | nil =>
    obtain rfl := Option.some.inj h
    exact hc
  | cons u us' ih =>
    simp only [build, Option.bind_eq_some_iff] at h
    obtain ⟨s₁, h1, h2⟩ := h
    exact ih (gen_inv hi h1) (gen_counted hi hc h1) h2

end

/-! ## What the loop puts in the list, and what it takes -/

/-- `uop->type = UOP_INVALID` -/
def invalidate (nr : Nat) (s : RegState) : RegState :=
  { s with uops := Function.update s.uops nr { s.uops nr with type := UOP_INVALID } }

theorem invalidate_self (nr : Nat) (s : RegState) :
    (invalidate nr s).uops nr = { s.uops nr with type := UOP_INVALID } :=
  Function.update_self ..

theorem invalidate_of_ne {nr i : Nat} {s : RegState} (h : i ≠ nr) :
    (invalidate nr s).uops i = s.uops i :=
  Function.update_of_ne h ..

/-- What `add_to_dead_list` is called for when a source is dropped. -/
def pushedBySource (src : Option IrReg) (s : RegState) : List (IReg × Nat) :=
  match src with
  | none => []
  | some r => if (countOf s r.place + 255) % 256 = 0 then [r.place] else []

/-- What goes into the list while `p` is at its head. -/
def pushedBy (p : IReg × Nat) (s : RegState) : List (IReg × Nat) :=
  let nr := parentOf s p
  let uop := s.uops nr
  if isBarrier uop.type then []
  else
    let s := invalidate nr s
    let s₁ := dropSource uop.src_reg_a s
    let s₂ := dropSource uop.src_reg_b s₁
    pushedBySource uop.src_reg_a s ++ pushedBySource uop.src_reg_b s₁ ++
      pushedBySource uop.src_reg_c s₂

/-- All that goes into the list while the loop runs. -/
def pushes : Nat → RegState → List (IReg × Nat)
  | fuel, s =>
    match s.reg_dead_list with
    | none => []
    | some p =>
      match fuel with
      | 0 => []
      | fuel + 1 => pushedBy p s ++ pushes fuel (removeDead p.1 p.2 s)

/-- The entries that the loop processes. -/
def visits : Nat → RegState → List (IReg × Nat)
  | fuel, s =>
    match s.reg_dead_list with
    | none => []
    | some p =>
      match fuel with
      | 0 => []
      | fuel + 1 => p :: visits fuel (removeDead p.1 p.2 s)

section

variable {s s' : RegState} {p q : IReg × Nat} {l : List (IReg × Nat)}

theorem dropSource_rest (src : Option IrReg) (s : RegState) :
    (dropSource src s).reg_last_version = s.reg_last_version ∧
      (dropSource src s).wr_pos = s.wr_pos := by
  unfold dropSource
  cases src with
  | none => exact ⟨rfl, rfl⟩
  | some r =>
    dsimp only
    split_ifs <;> exact ⟨rfl, rfl⟩

theorem dropSource_count {src : Option IrReg} (hle : refsOf src q ≤ countOf s q)
    (hsmall : countOf s q ≤ 255) : countOf (dropSource src s) q = countOf s q - refsOf src q := by
  unfold dropSource
  cases src with
  | none => rfl
  | some ir =>
    dsimp only
    by_cases hq : ir.place = q
    · subst hq
      have hone : refsOf (some ir) ir.place = 1 := if_pos rfl
      rw [hone] at hle ⊢
      have hcount : (countOf s ir.place + 255) % 256 = countOf s ir.place - 1 := by omega
      split_ifs
      · show ((add_to_dead_list ir.reg ir.version _).reg_version ir.reg ir.version).refcount = _
        rw [add_to_dead_list_self, setVersion_self]
        exact hcount
      · show ((setVersion ir.reg ir.version _ s).reg_version ir.reg ir.version).refcount = _
        rw [setVersion_self]
        exact hcount
    · have hzero : refsOf (some ir) q = 0 := if_neg fun heq => hq (Option.some.inj heq)
      have hne : q.1 ≠ ir.reg ∨ q.2 ≠ ir.version := by
        by_contra hall
        rw [not_or, not_not, not_not] at hall
        exact hq (Prod.ext hall.1.symm hall.2.symm)
      rw [hzero]
      unfold countOf
      split_ifs
      · rw [add_to_dead_list_of_ne hne, setVersion_of_ne _ _ hne]
        rfl
      · rw [setVersion_of_ne _ _ hne]
        rfl

/-- A version is put in the list when its count comes to zero. -/
theorem mem_pushedBySource {src : Option IrReg} (hle : refsOf src q ≤ countOf s q)
    (hsmall : countOf s q ≤ 255) : q ∈ pushedBySource src s ↔
      countOf s q ≠ 0 ∧ countOf (dropSource src s) q = 0 := by
  rw [dropSource_count hle hsmall]
  unfold pushedBySource
  cases src with
  | none =>
    refine ⟨nofun, ?_⟩
    rintro ⟨hne, hzero⟩
    exact absurd hzero hne
  | some ir =>
    dsimp only
    by_cases hq : ir.place = q
    · subst hq
      have hone : refsOf (some ir) ir.place = 1 := if_pos rfl
      rw [hone] at hle ⊢
      split_ifs with hpush
      · refine ⟨fun _ => ⟨by omega, by omega⟩, fun _ => List.mem_singleton.mpr rfl⟩
      · refine ⟨nofun, ?_⟩
        rintro ⟨-, hzero⟩
        omega
    · have hzero : refsOf (some ir) q = 0 := if_neg fun heq => hq (Option.some.inj heq)
      rw [hzero]
      constructor
      · intro hmem
        split_ifs at hmem
        · exact absurd (List.mem_singleton.mp hmem).symm hq
        · cases hmem
      · rintro ⟨hne, hcount⟩
        exact absurd hcount hne

/-- The three sources of a uop are dropped. -/
def dropped (uop : Uop) (s : RegState) : RegState :=
  dropSource uop.src_reg_c (dropSource uop.src_reg_b (dropSource uop.src_reg_a s))

theorem dropped_count {uop : Uop} (hle : uop.refs q ≤ countOf s q) (hsmall : countOf s q ≤ 255) :
    countOf (dropped uop s) q = countOf s q - uop.refs q ∧
    (q ∈ pushedBySource uop.src_reg_a s ++
        pushedBySource uop.src_reg_b (dropSource uop.src_reg_a s) ++
        pushedBySource uop.src_reg_c (dropSource uop.src_reg_b (dropSource uop.src_reg_a s)) ↔
      countOf s q ≠ 0 ∧ countOf (dropped uop s) q = 0) := by
  unfold Uop.refs at hle ⊢
  have ha := @dropSource_count s q uop.src_reg_a (by omega) hsmall
  have hb := @dropSource_count (dropSource uop.src_reg_a s) q uop.src_reg_b (by omega) (by omega)
  have hc := @dropSource_count (dropSource uop.src_reg_b (dropSource uop.src_reg_a s)) q
    uop.src_reg_c (by omega) (by omega)
  have hcount : countOf (dropped uop s) q = countOf s q -
      (refsOf uop.src_reg_a q + refsOf uop.src_reg_b q + refsOf uop.src_reg_c q) := by
    unfold dropped
    omega
  refine ⟨hcount, ?_⟩
  rw [List.mem_append, List.mem_append, mem_pushedBySource (by omega) hsmall,
    mem_pushedBySource (by omega) (by omega), mem_pushedBySource (by omega) (by omega)]
  omega

/-! ## One turn of the loop -/

/-- The state with `l` left to process. -/
structure Working (s : RegState) (l : List (IReg × Nat)) : Prop where
  walk : Walk (nextDead s) s.reg_dead_list l
  nodup : l.Nodup
  counted : Counted s
  sources : ∀ i < s.wr_pos, ∀ ir, (s.uops i).HasSource ir → ir.version ≤ s.reg_last_version ir.reg
  below : ∀ p ∈ l, p.2 ≤ s.reg_last_version p.1
  unread : ∀ p ∈ l, countOf s p = 0
  parent : ∀ p ∈ l, parentOf s p < s.wr_pos ∧ (s.uops (parentOf s p)).type ≠ UOP_INVALID
  distinct : ∀ p ∈ l, ∀ q ∈ l, parentOf s p = parentOf s q → p = q

/-- When a uop goes, its references are missing from the counts. -/
theorem readersOf_remove {i : Nat} (hi : i < s.wr_pos) (hwr : s'.wr_pos = s.wr_pos)
    (huops : s'.uops = (invalidate i s).uops) :
    readersOf s p = liveRefs s p i + readersOf s' p := by
  have hmem : i ∈ Finset.range s.wr_pos := Finset.mem_range.mpr hi
  have hgone : liveRefs s' p i = 0 := by
    unfold liveRefs
    rw [huops, invalidate_self]
    exact if_pos rfl
  have hrest : ∑ j ∈ (Finset.range s.wr_pos).erase i, liveRefs s' p j =
      ∑ j ∈ (Finset.range s.wr_pos).erase i, liveRefs s p j := by
    refine Finset.sum_congr rfl fun j hj => ?_
    unfold liveRefs
    rw [huops, invalidate_of_ne (Finset.ne_of_mem_erase hj)]
  unfold readersOf
  rw [hwr, ← Finset.add_sum_erase _ _ hmem, ← Finset.add_sum_erase _ (liveRefs s' p) hmem, hgone,
    hrest, Nat.zero_add]

/-- A uop that is there reads no version with a count of zero. -/
theorem Working.refs_le (h : Working s l) (hp : p ∈ l) (hq : q.2 ≤ s.reg_last_version q.1) :
    (s.uops (parentOf s p)).refs q ≤ countOf s q := by
  obtain ⟨hlt, htype⟩ := h.parent p hp
  have hsum := Finset.single_le_sum (f := liveRefs s q) (fun _ _ => Nat.zero_le _)
    (Finset.mem_range.mpr hlt)
  rw [(h.counted q hq).1]
  refine Nat.le_trans (Nat.le_of_eq ?_) hsum
  unfold liveRefs
  rw [if_neg htype]

theorem Working.readsNone (h : Working s l) (hp : p ∈ l) : ReadsNone s l p := by
  intro ir hir hm
  have hpos := refs_pos.mpr ⟨ir, hir, rfl⟩
  have hle := h.refs_le hp (q := ir.place) (h.below _ hm)
  have hzero : countOf s ir.place = 0 := h.unread _ hm
  omega

/-- The counts go down by what the uop of the entry reads, and the versions that come to zero
are put in the list. -/
theorem turn_count (h : Working s (p :: l)) (hq : q.2 ≤ s.reg_last_version q.1) :
    countOf (removeDead p.1 p.2 s) q = countOf s q -
        (if isBarrier (s.uops (parentOf s p)).type then 0 else (s.uops (parentOf s p)).refs q) ∧
    (q ∈ pushedBy p s ↔ countOf s q ≠ 0 ∧ countOf (removeDead p.1 p.2 s) q = 0) := by
  have hle := h.refs_le List.mem_cons_self hq
  have hsmall := (h.counted q hq).2
  unfold pushedBy
  dsimp only
  cases hb : isBarrier (s.uops (parentOf s p)).type with
  | true =>
    have hsame : countOf (removeDead p.1 p.2 s) q = countOf s q := by
      rw [removeDead_of_barrier hb]
      rfl
    rw [hsame, if_pos rfl, if_pos rfl]
    refine ⟨rfl, nofun, ?_⟩
    rintro ⟨hne, hzero⟩
    exact absurd hzero hne
  | false =>
    obtain ⟨hcount, hpush⟩ :=
      @dropped_count (invalidate (parentOf s p) s) q (s.uops (parentOf s p)) hle hsmall
    have hflag : countOf (removeDead p.1 p.2 s) q =
        countOf (dropped (s.uops (parentOf s p)) (invalidate (parentOf s p) s)) q := by
      rw [removeDead_of_not_barrier hb]
      unfold setDead countOf
      by_cases hne : q.1 ≠ p.1 ∨ q.2 ≠ p.2
      · rw [setVersion_of_ne _ _ hne]
        rfl
      · rw [not_or, not_not, not_not] at hne
        rw [hne.1, hne.2]
        show ((setVersion p.1 p.2 _ _).reg_version p.1 p.2).refcount = _
        rw [setVersion_self]
        rfl
    rw [hflag]
    exact ⟨hcount, hpush⟩

theorem turn_rest (p : IReg × Nat) (s : RegState) :
    (removeDead p.1 p.2 s).reg_last_version = s.reg_last_version ∧
      (removeDead p.1 p.2 s).wr_pos = s.wr_pos := by
  cases hb : isBarrier (s.uops (parentOf s p)).type with
  | true =>
    rw [removeDead_of_barrier hb]
    exact ⟨rfl, rfl⟩
  | false =>
    rw [removeDead_of_not_barrier hb]
    unfold setDead setVersion unreferenced
    dsimp only
    rw [(dropSource_rest _ _).1, (dropSource_rest _ _).1, (dropSource_rest _ _).1,
      (dropSource_rest _ _).2, (dropSource_rest _ _).2, (dropSource_rest _ _).2]
    exact ⟨rfl, rfl⟩

theorem turn_counted (h : Working s (p :: l)) : Counted (removeDead p.1 p.2 s) := by
  obtain ⟨hlast, hwr⟩ := turn_rest p s
  obtain ⟨hlt, htype⟩ := h.parent p List.mem_cons_self
  intro q hq
  rw [hlast] at hq
  have hcount := (turn_count h hq).1
  obtain ⟨heq, hsmall⟩ := h.counted q hq
  refine ⟨?_, by omega⟩
  cases hb : isBarrier (s.uops (parentOf s p)).type with
  | true =>
    rw [hb, if_pos rfl, heq] at hcount
    rw [hcount, removeDead_of_barrier hb]
    rfl
  | false =>
    have huops : (removeDead p.1 p.2 s).uops = (invalidate (parentOf s p) s).uops := by
      rw [removeDead_of_not_barrier hb]
      exact unreferenced_uops s _
    have hsum := @readersOf_remove s _ q _ hlt hwr huops
    unfold liveRefs at hsum
    rw [if_neg htype] at hsum
    rw [hb, if_neg Bool.false_ne_true] at hcount
    omega

/-- A turn leaves the rest of the list to process. -/
theorem turn_working (h : Working s (p :: l)) : Working (removeDead p.1 p.2 s) l := by
  obtain ⟨hlast, hwr⟩ := turn_rest p s
  obtain ⟨hrem, hlist, hnext⟩ := removeDead_step (h.readsNone List.mem_cons_self)
  have hmem : ∀ q ∈ l, q ∈ p :: l := fun q hq => List.mem_cons_of_mem p hq
  refine ⟨?_, h.nodup.of_cons, turn_counted h, ?_, ?_, ?_, ?_, ?_⟩
  · rw [hlist]
    exact walk_congr hnext h.walk.2
  · intro i hi ir hir
    rw [hwr] at hi
    rw [hrem.hasSource] at hir
    rw [hlast]
    exact h.sources i hi ir hir
  · intro q hq
    rw [hlast]
    exact h.below q (hmem q hq)
  · intro q hq
    have hcount := (turn_count h (h.below q (hmem q hq))).1
    have hzero := h.unread q (hmem q hq)
    omega
  · intro q hq
    obtain ⟨hlt, htype⟩ := h.parent q (hmem q hq)
    rw [hrem.parent, hwr]
    refine ⟨hlt, ?_⟩
    -- The uops of two entries differ, so the one of `q` is left alone.
    have hkept : ¬GoesWith s [p] (parentOf s q) := by
      rintro ⟨⟨p', hp', heq⟩, -⟩
      obtain rfl := List.mem_singleton.mp hp'
      obtain rfl := h.distinct p' List.mem_cons_self q (hmem q hq) heq
      exact (List.nodup_cons.mp h.nodup).1 hq
    rw [hrem.kept _ hkept]
    exact htype
  · intro q hq q' hq' heq
    rw [hrem.parent, hrem.parent] at heq
    exact h.distinct q (hmem q hq) q' (hmem q' hq') heq

/-! ## The whole loop -/

theorem mem_pushedBySource_source {src : Option IrReg} (h : q ∈ pushedBySource src s) :
    ∃ ir, src = some ir ∧ ir.place = q := by
  unfold pushedBySource at h
  cases src with
  | none => cases h
  | some ir =>
    dsimp only at h
    split_ifs at h
    · exact ⟨ir, rfl, (List.mem_singleton.mp h).symm⟩
    · cases h

theorem mem_pushedBy_source (h : q ∈ pushedBy p s) :
    ∃ ir, (s.uops (parentOf s p)).HasSource ir ∧ ir.place = q := by
  unfold pushedBy at h
  dsimp only at h
  split_ifs at h
  · cases h
  · rw [List.mem_append, List.mem_append] at h
    rcases h with (h | h) | h
    · obtain ⟨ir, hir, hq⟩ := mem_pushedBySource_source h
      exact ⟨ir, Or.inl hir, hq⟩
    · obtain ⟨ir, hir, hq⟩ := mem_pushedBySource_source h
      exact ⟨ir, Or.inr (Or.inl hir), hq⟩
    · obtain ⟨ir, hir, hq⟩ := mem_pushedBySource_source h
      exact ⟨ir, Or.inr (Or.inr hir), hq⟩

theorem pushedBy_below (h : Working s (p :: l)) (hq : q ∈ pushedBy p s) :
    q.2 ≤ s.reg_last_version q.1 := by
  obtain ⟨ir, hir, rfl⟩ := mem_pushedBy_source hq
  exact h.sources _ (h.parent p List.mem_cons_self).1 ir hir

/-- The loop processes the list that it starts with, and nothing that is put in meanwhile: that
is every version whose count comes to zero. -/
theorem loop_working {fuel : Nat} (hlen : l.length ≤ fuel) (h : Working s l) :
    ∃ s', processLoop fuel s = some s' ∧ visits fuel s = l ∧ Working s' [] ∧
      s'.reg_last_version = s.reg_last_version ∧ s'.wr_pos = s.wr_pos ∧
      (∀ q ∈ pushes fuel s, q.2 ≤ s.reg_last_version q.1) ∧
      ∀ q : IReg × Nat, q.2 ≤ s.reg_last_version q.1 → countOf s' q ≤ countOf s q ∧
        (q ∈ pushes fuel s ↔ countOf s q ≠ 0 ∧ countOf s' q = 0) := by
  induction l generalizing fuel s with
  | nil =>
    have hnil : s.reg_dead_list = none := h.walk
    have hpushes : pushes fuel s = [] := by
      unfold pushes
      rw [hnil]
    refine ⟨s, ?_, ?_, h, rfl, rfl, ?_, fun q _ => ⟨Nat.le_refl _, ?_⟩⟩
    · unfold processLoop
      rw [hnil]
    · unfold visits
      rw [hnil]
    · rw [hpushes]
      exact fun q hq => absurd hq List.not_mem_nil
    · rw [hpushes]
      refine ⟨fun hq => absurd hq List.not_mem_nil, ?_⟩
      rintro ⟨hne, hzero⟩
      exact absurd hzero hne
  | cons p l ih =>
    obtain ⟨n, rfl⟩ : ∃ n, fuel = n + 1 := by
      rw [List.length_cons] at hlen
      exact ⟨fuel - 1, by omega⟩
    obtain ⟨s', hrun, hvisits, hend, hlast, hwr, hbelow, hcounts⟩ :=
      ih (Nat.le_of_succ_le_succ hlen) (turn_working h)
    obtain ⟨hturn, hturnwr⟩ := turn_rest p s
    rw [hturn] at hlast
    rw [hturnwr] at hwr
    simp only [hturn] at hbelow hcounts
    have hhead := h.walk.1
    have hpushes : pushes (n + 1) s = pushedBy p s ++ pushes n (removeDead p.1 p.2 s) := by
      conv_lhs => unfold pushes
      rw [hhead]
    refine ⟨s', ?_, ?_, hend, hlast, hwr, ?_, ?_⟩
    · unfold processLoop
      rw [hhead]
      exact hrun
    · unfold visits
      rw [hhead, ← hvisits]
    · intro q hq
      rw [hpushes, List.mem_append] at hq
      exact hq.elim (pushedBy_below h) (hbelow q)
    · intro q hq
      obtain ⟨hcount, hpush⟩ := turn_count h hq
      obtain ⟨hle, hlater⟩ := hcounts q hq
      rw [hpushes, List.mem_append, hpush, hlater]
      omega

end

/-! ## The list of a finished block -/

/-- The tables of a finished block, with any list of versions that are superseded, not read and
not required. -/
structure Listed (s s' : RegState) (l : List (IReg × Nat)) : Prop where
  reg_last_version : s'.reg_last_version = s.reg_last_version
  uops : s'.uops = s.uops
  wr_pos : s'.wr_pos = s.wr_pos
  refcount : ∀ p, countOf s' p = countOf s p
  required : ∀ r v, (s'.reg_version r v).required = (s.reg_version r v).required
  dead : ∀ r v, (s'.reg_version r v).dead = (s.reg_version r v).dead
  parent_uop : ∀ p, parentOf s' p = parentOf s p
  walk : Walk (nextDead s') s'.reg_dead_list l
  nodup : l.Nodup
  superseded : ∀ p ∈ l, 0 < p.2 ∧ p.2 < s.reg_last_version p.1
  unread : ∀ p ∈ l, countOf s p = 0
  not_required : ∀ p ∈ l, (s.reg_version p.1 p.2).required = false

/-- The last reader of the version went, and nothing else needs it. -/
structure Orphaned (s s' : RegState) (p : IReg × Nat) : Prop where
  above : 0 < p.2
  superseded : p.2 < s.reg_last_version p.1
  native : ∃ ir, (s.uops (parentOf s (p.1, p.2 + 1))).dest_reg_a = some ir ∧
    ir.place = (p.1, p.2 + 1) ∧ reg_is_native_size ir.toOperand = true
  not_required : (s.reg_version p.1 p.2).required = false
  parent : isBarrier (s.uops (parentOf s p)).type = false
  before : countOf s p ≠ 0
  after : countOf s' p = 0

/-- The list is worked off: what is put in is processed too, and every version that lost its
readers is dead. -/
structure WorkedOff (s s' : RegState) : Prop where
  kept : ∀ p ∈ pushes (94 * 256) s, p ∈ visits (94 * 256) s
  dead : ∀ p, Orphaned s s' p →
    p ∈ visits (94 * 256) s ∧ (s'.reg_version p.1 p.2).dead = true

/-- Every version that is read by a uop that goes with `l` is read by one that stays as well. -/
def ReadElsewhere (s : RegState) (l : List (IReg × Nat)) : Prop :=
  ∀ i < s.wr_pos, GoesWith s l i → ∀ ir, (s.uops i).HasSource ir →
    ∃ j < s.wr_pos, ¬GoesWith s l j ∧ ∃ ir', (s.uops j).HasSource ir' ∧ ir'.place = ir.place

section

variable {us : List UopCall} {s s₁ s₂ : RegState} {l : List (IReg × Nat)}

theorem mark_counted (h : Counted s) : Counted (codegen_reg_mark_as_required s) := by
  have hcount : ∀ p, countOf (codegen_reg_mark_as_required s) p = countOf s p := by
    intro p
    unfold countOf codegen_reg_mark_as_required
    dsimp only
    split_ifs <;> rfl
  intro p hp
  rw [hcount]
  exact h p hp

theorem Listed.counted (hl : Listed s s₂ l) (h : Counted s) : Counted s₂ := by
  intro p hp
  rw [hl.reg_last_version] at hp
  have hreaders : readersOf s₂ p = readersOf s p := by
    unfold readersOf liveRefs
    rw [hl.wr_pos, hl.uops]
  rw [hl.refcount, hreaders]
  exact h p hp

theorem built_valid (hi : Inv us s₁) {i : Nat} (hlt : i < s₁.wr_pos) :
    (s₁.uops i).type ≠ UOP_INVALID := by
  rw [hi.wr_pos] at hlt
  rw [hi.type _ _ (List.getElem?_eq_getElem hlt)]
  exact us[i].valid

theorem listed_working (hi : Inv us s₁) (hc : Counted s₁)
    (hl : Listed (codegen_reg_mark_as_required s₁) s₂ l) : Working s₂ l := by
  have hlast : s₂.reg_last_version = s₁.reg_last_version := hl.reg_last_version
  have hwr : s₂.wr_pos = us.length := hl.wr_pos.trans hi.wr_pos
  have hparent : ∀ p, parentOf s₂ p = parentOf s₁ p := fun p =>
    (hl.parent_uop p).trans (mark_version s₁ p.1 p.2).1
  have huops : s₂.uops = s₁.uops := hl.uops
  have hwritten : ∀ p ∈ l, parentOf s₁ p < us.length ∧
      ∃ ir, (s₁.uops (parentOf s₁ p)).dest_reg_a = some ir ∧ ir.place = p := by
    intro p hp
    obtain ⟨hlt, ir, hir, hreg, hversion⟩ :=
      hi.written p.1 p.2 (hl.superseded p hp).1 (hl.superseded p hp).2.le
    exact ⟨hlt, ir, hir, Prod.ext hreg hversion⟩
  refine ⟨hl.walk, hl.nodup, hl.counted (mark_counted hc), ?_, ?_, ?_, ?_, ?_⟩
  · intro i hlt ir hir
    rw [hwr] at hlt
    rw [huops] at hir
    rw [hlast]
    exact (hi.source i hlt ir hir).1
  · intro p hp
    rw [hlast]
    exact (hl.superseded p hp).2.le
  · intro p hp
    rw [hl.refcount]
    exact hl.unread p hp
  · intro p hp
    have hlt := (hwritten p hp).1
    rw [hparent, hwr, huops]
    exact ⟨hlt, built_valid hi (hi.wr_pos ▸ hlt)⟩
  · intro p hp q hq heq
    obtain ⟨-, ir, hir, rfl⟩ := hwritten p hp
    obtain ⟨-, ir', hir', rfl⟩ := hwritten q hq
    rw [hparent, hparent] at heq
    rw [heq, hir'] at hir
    rw [Option.some.inj hir]

/-- The list is worked off only where nothing has to be put in. -/
theorem the_list_is_worked_off_iff (hfresh : Fresh s) (hbuild : build us s = some s₁)
    (hl : Listed (codegen_reg_mark_as_required s₁) s₂ l) :
    ∃ s₃, codegen_reg_process_dead_list s₂ = some s₃ ∧
      (WorkedOff s₂ s₃ ↔ ReadElsewhere s₂ l) := by
  have hi : Inv us s₁ := by
    have hbuilt := build_inv (fresh_inv hfresh) hbuild
    rwa [List.nil_append] at hbuilt
  have hc : Counted s₁ := build_counted (fresh_inv hfresh) (fresh_counted hfresh) hbuild
  have hw := listed_working hi hc hl
  have hlen : l.length ≤ 94 * 256 := entries_length hl.nodup fun p hp =>
    Nat.le_trans (hl.superseded p hp).2.le (hi.bound p.1)
  obtain ⟨s₃, hrun, hvisits, hend, hlast, hwr, hbelow, hcounts⟩ := loop_working hlen hw
  obtain ⟨s₃', hrun', hrem⟩ := processLoop_removal hlen hw.walk fun p hp => hw.readsNone hp
  obtain rfl := Option.some.inj (hrun.symm.trans hrun')
  have hthere : ∀ i < s₂.wr_pos, (s₂.uops i).type ≠ UOP_INVALID := fun i hlt => by
    rw [hl.wr_pos] at hlt
    rw [hl.uops]
    exact built_valid hi hlt
  have hstays : ∀ i < s₂.wr_pos, ((s₃.uops i).type ≠ UOP_INVALID ↔ ¬GoesWith s₂ l i) := by
    intro i hlt
    by_cases hgoes : GoesWith s₂ l i
    · rw [hrem.gone i hgoes]
      exact ⟨fun hne => absurd rfl hne, fun hnot => absurd hgoes hnot⟩
    · rw [hrem.kept i hgoes]
      exact ⟨fun _ => hgoes, fun _ => hthere i hlt⟩
  have hbefore : ∀ q : IReg × Nat, q.2 ≤ s₂.reg_last_version q.1 → (countOf s₂ q ≠ 0 ↔
      ∃ i < s₂.wr_pos, ∃ ir, (s₂.uops i).HasSource ir ∧ ir.place = q) := by
    intro q hq
    rw [(hw.counted q hq).1, ← Nat.pos_iff_ne_zero, readersOf_pos]
    constructor
    · rintro ⟨i, hlt, -, hreads⟩
      exact ⟨i, hlt, hreads⟩
    · rintro ⟨i, hlt, hreads⟩
      exact ⟨i, hlt, hthere i hlt, hreads⟩
  have hafter : ∀ q : IReg × Nat, q.2 ≤ s₂.reg_last_version q.1 → (countOf s₃ q ≠ 0 ↔
      ∃ i < s₂.wr_pos, ¬GoesWith s₂ l i ∧ ∃ ir, (s₂.uops i).HasSource ir ∧ ir.place = q) := by
    intro q hq
    rw [← hlast] at hq
    rw [(hend.counted q hq).1, ← Nat.pos_iff_ne_zero, readersOf_pos, hwr]
    simp only [hrem.hasSource]
    constructor
    · rintro ⟨i, hlt, htype, hreads⟩
      exact ⟨i, hlt, (hstays i hlt).mp htype, hreads⟩
    · rintro ⟨i, hlt, hgoes, hreads⟩
      exact ⟨i, hlt, (hstays i hlt).mpr hgoes, hreads⟩
  refine ⟨s₃, hrun, ?_, ?_⟩
  · intro hworked i hlt hgoes ir hir
    by_contra hno
    have hq := hw.sources i hlt ir hir
    have hread := (hbefore ir.place hq).mpr ⟨i, hlt, ir, hir, rfl⟩
    have hlost : countOf s₃ ir.place = 0 := not_not.mp (mt (hafter ir.place hq).mp hno)
    have hvisited := hworked.kept _ ((hcounts _ hq).2.mpr ⟨hread, hlost⟩)
    rw [hvisits] at hvisited
    exact hread (hw.unread _ hvisited)
  · intro helse
    have hkeeps : ∀ q : IReg × Nat, q.2 ≤ s₂.reg_last_version q.1 → countOf s₂ q ≠ 0 →
        countOf s₃ q ≠ 0 := by
      intro q hq hread
      obtain ⟨i, hlt, ir, hir, rfl⟩ := (hbefore q hq).mp hread
      refine (hafter _ hq).mpr ?_
      by_cases hgoes : GoesWith s₂ l i
      · exact helse i hlt hgoes ir hir
      · exact ⟨i, hlt, hgoes, ir, hir, rfl⟩
    refine ⟨fun q hpush => ?_, fun q horphan => ?_⟩
    · have hq := hbelow q hpush
      obtain ⟨hread, hlost⟩ := (hcounts q hq).2.mp hpush
      exact absurd hlost (hkeeps q hq hread)
    · exact absurd horphan.after (hkeeps q horphan.superseded.le horphan.before)

end

def UOP_MOV : BitVec 32 := 1 <<< 28 ||| 0x22

def uop_MOV (dst_reg src_reg : IReg) : UopCall :=
  ⟨UOP_MOV, by decide, some ⟨dst_reg, IRegSize.IREG_SIZE_L⟩, some ⟨src_reg, IRegSize.IREG_SIZE_L⟩,
    none, none⟩

def IREG_temp1 : IReg := 84
def IREG_temp2 : IReg := 85

/-- `temp0` is copied twice, and one of the copies is written again. -/
def twoCopies : List UopCall :=
  [uop_MOV_IMM IREG_temp0, uop_MOV IREG_temp1 IREG_temp0, uop_MOV IREG_temp2 IREG_temp0,
    uop_MOV_IMM IREG_temp1]

/-- The copy that goes is not the last reader. -/
theorem one_of_two_copies_goes : ∃ s₁ s₃, build twoCopies emptyBlock = some s₁ ∧
    codegen_reg_process_dead_list (codegen_reg_mark_as_required s₁) = some s₃ ∧
    WorkedOff (codegen_reg_mark_as_required s₁) s₃ := by
  obtain ⟨s₁, hs₁⟩ := Option.isSome_iff_exists.mp
    (show (build twoCopies emptyBlock).isSome = true from rfl)
  obtain rfl := Option.get_of_eq_some rfl hs₁
  have hlisted : Listed (codegen_reg_mark_as_required ((build twoCopies emptyBlock).get rfl))
      (codegen_reg_mark_as_required ((build twoCopies emptyBlock).get rfl)) [(IREG_temp1, 1)] := by
    refine ⟨rfl, rfl, rfl, fun _ => rfl, fun _ _ => rfl, fun _ _ => rfl, fun _ => rfl, ⟨rfl, rfl⟩,
      List.nodup_singleton _, ?_, ?_, ?_⟩
    all_goals
      intro p hp
      obtain rfl := List.mem_singleton.mp hp
      decide
  obtain ⟨s₃, hrun, hiff⟩ := the_list_is_worked_off_iff emptyBlock_fresh hs₁ hlisted
  refine ⟨_, s₃, hs₁, hrun, hiff.mpr ?_⟩
  rintro i - ⟨⟨p, hp, rfl⟩, -⟩ ir hir
  obtain rfl := List.mem_singleton.mp hp
  have hsource : ir = ⟨⟨IREG_temp0, IRegSize.IREG_SIZE_L⟩, 1⟩ := by
    rcases hir with hir | hir | hir
    · exact (Option.some.inj hir).symm
    · cases hir
    · cases hir
  refine ⟨2, by decide, ?_, _, Or.inl rfl, ?_⟩
  · rintro ⟨⟨p, hp, hparent⟩, -⟩
    obtain rfl := List.mem_singleton.mp hp
    exact absurd hparent (by decide)
  · rw [hsource]
    rfl

/-- `temp0` is copied, and then both are written again. -/
def oneCopy : List UopCall :=
  [uop_MOV_IMM IREG_temp0, uop_MOV IREG_temp1 IREG_temp0, uop_MOV_IMM IREG_temp1,
    uop_MOV_IMM IREG_temp0]

/-- When the copy goes, what was copied is put in the list and left in the block. -/
theorem what_was_copied_stays : ∃ s₁ s₃, Fresh emptyBlock ∧ build oneCopy emptyBlock = some s₁ ∧
    Listed (codegen_reg_mark_as_required s₁) (codegen_reg_mark_as_required s₁) [(IREG_temp1, 1)] ∧
    codegen_reg_process_dead_list (codegen_reg_mark_as_required s₁) = some s₃ ∧
    Orphaned (codegen_reg_mark_as_required s₁) s₃ (IREG_temp0, 1) ∧
    (s₃.reg_version IREG_temp0 1).dead = false ∧
    (IREG_temp0, 1) ∈ pushes (94 * 256) (codegen_reg_mark_as_required s₁) ∧
    (IREG_temp0, 1) ∉ visits (94 * 256) (codegen_reg_mark_as_required s₁) := by
  refine ⟨(build oneCopy emptyBlock).get rfl,
    (codegen_reg_process_dead_list
      (codegen_reg_mark_as_required ((build oneCopy emptyBlock).get rfl))).get rfl,
    emptyBlock_fresh, (Option.some_get _).symm, ?_, (Option.some_get _).symm, ?_, rfl, ?_, ?_⟩
  · refine ⟨rfl, rfl, rfl, fun _ => rfl, fun _ _ => rfl, fun _ _ => rfl, fun _ => rfl, ⟨rfl, rfl⟩,
      List.nodup_singleton _, ?_, ?_, ?_⟩
    all_goals
      intro p hp
      obtain rfl := List.mem_singleton.mp hp
      decide
  · exact ⟨by decide, by decide, ⟨_, rfl, rfl, rfl⟩, rfl, rfl, by decide, rfl⟩
  · show (IREG_temp0, 1) ∈ [(IREG_temp0, 1)]
    exact List.mem_singleton.mpr rfl
  · show (IREG_temp0, 1) ∉ [(IREG_temp1, 1)]
    decide

end blumach.codegen_reg
