-- The removal of dead uops. A uop is removed when no one needs the version that it
-- wrote, and barriers need the registers up to the temporaries only: what stands
-- after them in the table is forgotten.
import BluMach.CodegenRegSteps
import BluMach.LinkedList

namespace blumach.codegen_reg

open linked_list

/-! ## The uops of a block -/

/-- The call number `i` is there, and has this property. -/
def At (us : List UopCall) (i : Nat) (P : UopCall → Prop) : Prop := ∃ u, us[i]? = some u ∧ P u

def IsBarrier (u : UopCall) : Prop := isBarrier u.type = true

/-- The write of `r` by uop `w` makes the one by uop `j` dead. -/
structure DeadAt (us : List UopCall) (r : IReg) (j w : Nat) : Prop where
  above : r > IREG_EBX
  lt : j < w
  first : At us j (·.Writes r)
  second : At us w (·.WritesNative r)
  no_write : ∀ i, j < i → i < w → ¬At us i (·.Writes r)
  no_read : ∀ i, j < i → i ≤ w → ¬At us i (·.Reads r)
  no_need : ¬(r < IREG_temp0 ∧ ∃ i, j < i ∧ i ≤ w ∧ At us i IsBarrier)

theorem At.lt {us : List UopCall} {i : Nat} {P : UopCall → Prop} (h : At us i P) :
    i < us.length := by
  obtain ⟨u, hu, -⟩ := h
  exact (List.getElem?_eq_some_iff.mp hu).1

theorem at_snoc {us : List UopCall} {u : UopCall} {i : Nat} {P : UopCall → Prop} :
    At (us ++ [u]) i P ↔ At us i P ∨ (i = us.length ∧ P u) := by
  unfold At
  rcases Nat.lt_trichotomy i us.length with h | h | h
  · rw [List.getElem?_append_left h]
    constructor
    · exact Or.inl
    · rintro (h' | h')
      · exact h'
      · omega
  · subst h
    rw [List.getElem?_append_right (Nat.le_refl _)]
    simp
  · have h1 : us[i]? = none := List.getElem?_eq_none (Nat.le_of_lt h)
    have h2 : (us ++ [u])[i]? = none := List.getElem?_eq_none (by simp; omega)
    rw [h1, h2]
    simp
    omega

theorem at_snoc_lt {us : List UopCall} {u : UopCall} {i : Nat} {P : UopCall → Prop}
    (h : i < us.length) : At (us ++ [u]) i P ↔ At us i P := by
  rw [at_snoc]
  constructor
  · rintro (h' | h')
    · exact h'
    · omega
  · exact Or.inl

theorem not_at_length {us : List UopCall} {P : UopCall → Prop} : ¬At us us.length P :=
  fun h => absurd h.lt (Nat.lt_irrefl _)

/-- Later uops change nothing. -/
theorem deadAt_snoc_lt {us : List UopCall} {u : UopCall} {r : IReg} {j w : Nat}
    (hw : w < us.length) : DeadAt (us ++ [u]) r j w ↔ DeadAt us r j w := by
  have hat : ∀ {i} {P : UopCall → Prop}, i ≤ w → (At (us ++ [u]) i P ↔ At us i P) :=
    fun hi => at_snoc_lt (by omega)
  constructor
  · intro h
    refine ⟨h.above, h.lt, (hat h.lt.le).mp h.first, (hat (Nat.le_refl w)).mp h.second, ?_, ?_, ?_⟩
    · intro i h1 h2 h3
      exact h.no_write i h1 h2 ((hat h2.le).mpr h3)
    · intro i h1 h2 h3
      exact h.no_read i h1 h2 ((hat h2).mpr h3)
    · rintro ⟨h1, i, h2, h3, h4⟩
      exact h.no_need ⟨h1, i, h2, h3, (hat h3).mpr h4⟩
  · intro h
    refine ⟨h.above, h.lt, (hat h.lt.le).mpr h.first, (hat (Nat.le_refl w)).mpr h.second, ?_,
      ?_, ?_⟩
    · intro i h1 h2 h3
      exact h.no_write i h1 h2 ((hat h2.le).mp h3)
    · intro i h1 h2 h3
      exact h.no_read i h1 h2 ((hat h2).mp h3)
    · rintro ⟨h1, i, h2, h3, h4⟩
      exact h.no_need ⟨h1, i, h2, h3, (hat h3).mp h4⟩

/-! ## What the tables say of the block -/

def nextDead (s : RegState) (p : IReg × Nat) : Option (IReg × Nat) := (s.reg_version p.1 p.2).next

/-- The versions in the dead list are those of the dead uops. -/
structure DeadList (us : List UopCall) (s : RegState) (l : List (IReg × Nat)) : Prop where
  walk : Walk (nextDead s) s.reg_dead_list l
  nodup : l.Nodup
  below : ∀ p ∈ l, 0 < p.2 ∧ p.2 < s.reg_last_version p.1
  refcount : ∀ p ∈ l, (s.reg_version p.1 p.2).refcount = 0
  dead : ∀ p ∈ l, DeadAt us p.1 (s.reg_version p.1 p.2).parent_uop
    (s.reg_version p.1 (p.2 + 1)).parent_uop
  complete : ∀ r j w, DeadAt us r j w → ∃ v, (r, v) ∈ l ∧ (s.reg_version r v).parent_uop = j

def Uop.HasSource (uop : Uop) (ir : IrReg) : Prop :=
  uop.src_reg_a = some ir ∨ uop.src_reg_b = some ir ∨ uop.src_reg_c = some ir

structure Inv (us : List UopCall) (s : RegState) : Prop where
  wr_pos : s.wr_pos = us.length
  type : ∀ i u, us[i]? = some u → (s.uops i).type = u.type
  bound : ∀ r, s.reg_last_version r ≤ 255
  unwritten : ∀ r, s.reg_last_version r = 0 → ∀ i, ¬At us i (·.Writes r)
  writer : ∀ r, 0 < s.reg_last_version r →
    At us (s.reg_version r (s.reg_last_version r)).parent_uop (·.Writes r)
  last : ∀ r, 0 < s.reg_last_version r →
    ∀ i, (s.reg_version r (s.reg_last_version r)).parent_uop < i → ¬At us i (·.Writes r)
  idle : ∀ r, 0 < s.reg_last_version r →
    ((s.reg_version r (s.reg_last_version r)).refcount = 0 ↔
      ∀ i, (s.reg_version r (s.reg_last_version r)).parent_uop < i → ¬At us i (·.Reads r))
  dirty : ∀ r, 0 < s.reg_last_version r → (s.dirty_ir_regs r = true ↔
    ∃ i, (s.reg_version r (s.reg_last_version r)).parent_uop < i ∧ At us i IsBarrier)
  required : ∀ r, 0 < s.reg_last_version r →
    (s.reg_version r (s.reg_last_version r)).required = false
  dead : ∃ l, DeadList us s l
  source : ∀ i < us.length, ∀ ir, (s.uops i).HasSource ir →
    ir.version ≤ s.reg_last_version ir.reg ∧ (s.reg_version ir.reg ir.version).refcount ≠ 0
  dest : ∀ i < us.length, ∀ ir, (s.uops i).dest_reg_a = some ir →
    0 < ir.version ∧ ir.version ≤ s.reg_last_version ir.reg ∧
      (s.reg_version ir.reg ir.version).parent_uop = i ∧
      At us i fun u => u.dest = some ir.toOperand
  written : ∀ r v, 0 < v → v ≤ s.reg_last_version r →
    (s.reg_version r v).parent_uop < us.length ∧
      ∃ ir, (s.uops (s.reg_version r v).parent_uop).dest_reg_a = some ir ∧ ir.reg = r ∧
        ir.version = v

theorem fresh_inv {s : RegState} (h : Fresh s) : Inv [] s := by
  have hno : ∀ {i} {P : UopCall → Prop}, ¬At [] i P := fun h => absurd h.lt (by simp)
  have h0 : ∀ {P : Prop} r, 0 < s.reg_last_version r → P := by
    intro P r hr
    rw [h.reg_last_version] at hr
    exact absurd hr (by simp)
  refine ⟨h.wr_pos, by simp, ?_, fun _ _ _ => hno, fun r hr => h0 r hr, fun r hr => h0 r hr,
    fun r hr => h0 r hr, fun r hr => h0 r hr, fun r hr => h0 r hr, ⟨[], ?_⟩, ?_, ?_, ?_⟩
  · intro r
    rw [h.reg_last_version]
    omega
  · refine ⟨h.reg_dead_list, List.nodup_nil, by simp, by simp, by simp, ?_⟩
    intro r j w hd
    exact absurd hd.first hno
  · intro i hi
    exact absurd hi (by simp)
  · intro i hi
    exact absurd hi (by simp)
  · intro r v h1 h2
    exact h0 r (Nat.lt_of_lt_of_le h1 h2)

/-! ## One more uop -/

section

variable {us : List UopCall} {u : UopCall} {s s' : RegState}

theorem parent_lt (hi : Inv us s) {r : IReg} (h0 : 0 < s.reg_last_version r) :
    (s.reg_version r (s.reg_last_version r)).parent_uop < us.length :=
  (hi.writer r h0).lt

/-- The uop that a dead one gives way to follows the last writer. -/
theorem writer_of_deadAt (hi : Inv us s) {r : IReg} {j : Nat}
    (h : DeadAt (us ++ [u]) r j us.length) :
    0 < s.reg_last_version r ∧ j = (s.reg_version r (s.reg_last_version r)).parent_uop := by
  have hj : At us j (·.Writes r) := (at_snoc_lt h.lt).mp h.first
  have h0 : 0 < s.reg_last_version r := by
    rw [Nat.pos_iff_ne_zero]
    intro h0
    exact hi.unwritten r h0 j hj
  refine ⟨h0, ?_⟩
  rcases Nat.lt_trichotomy j (s.reg_version r (s.reg_last_version r)).parent_uop with hlt | he | hlt
  · have hp := parent_lt hi h0
    exact absurd ((at_snoc_lt hp).mpr (hi.writer r h0)) (h.no_write _ hlt hp)
  · exact he
  · exact absurd hj (hi.last r h0 j hlt)

theorem kills_iff (hi : Inv us s) {r : IReg} (h0 : 0 < s.reg_last_version r) :
    Kills u s r ↔
      DeadAt (us ++ [u]) r (s.reg_version r (s.reg_last_version r)).parent_uop us.length := by
  have hp := parent_lt hi h0
  constructor
  · rintro ⟨h1, -, h3, h4, h5, h6⟩
    rw [hi.idle r h0] at h3
    refine ⟨h1, hp, (at_snoc_lt hp).mpr (hi.writer r h0), at_snoc.mpr (Or.inr ⟨rfl, h6⟩), ?_,
      ?_, ?_⟩
    · intro i hi1 hi2
      rw [at_snoc_lt hi2]
      exact hi.last r h0 i hi1
    · intro i hi1 hi2 hr
      rcases at_snoc.mp hr with hr | ⟨-, hr⟩
      · exact h3 i hi1 hr
      · exact h4 hr
    · rintro ⟨ht, i, hi1, hi2, hb⟩
      apply h5
      rcases at_snoc.mp hb with hb | ⟨-, hb⟩
      · exact ⟨Or.inr ((hi.dirty r h0).mpr ⟨i, hi1, hb⟩), ht⟩
      · exact ⟨Or.inl hb, ht⟩
  · intro h
    have hnew : ∀ {P : UopCall → Prop}, P u → At (us ++ [u]) us.length P :=
      fun hP => at_snoc.mpr (Or.inr ⟨rfl, hP⟩)
    refine ⟨h.above, by omega, ?_, ?_, ?_, ?_⟩
    · rw [hi.idle r h0]
      intro i hi1 hr
      exact h.no_read i hi1 hr.lt.le (at_snoc.mpr (Or.inl hr))
    · intro hr
      exact h.no_read us.length hp (Nat.le_refl _) (hnew hr)
    · rintro ⟨hb | hd, ht⟩
      · exact h.no_need ⟨ht, us.length, hp, Nat.le_refl _, hnew hb⟩
      · obtain ⟨i, hi1, hb⟩ := (hi.dirty r h0).mp hd
        exact h.no_need ⟨ht, i, hi1, hb.lt.le, at_snoc.mpr (Or.inl hb)⟩
    · rcases at_snoc.mp h.second with hs | ⟨-, hs⟩
      · exact absurd hs not_at_length
      · exact hs

theorem kills_unique {r r' : IReg} (h : Kills u s r) (h' : Kills u s r') : r = r' := by
  obtain ⟨-, -, -, -, -, op, h1, rfl, -⟩ := h
  obtain ⟨-, -, -, -, -, op', h1', rfl, -⟩ := h'
  rw [h1] at h1'
  rw [Option.some.inj h1']

theorem last_le (hg : GenStep u s s') (r : IReg) :
    s.reg_last_version r ≤ s'.reg_last_version r := by
  by_cases hw : u.Writes r
  · rw [(hg.write r hw).2.1]
    omega
  · rw [(hg.keep r hw).1]

theorem parent_same (hg : GenStep u s s') {r : IReg} {v : Nat} (hv : v ≤ s.reg_last_version r) :
    (s'.reg_version r v).parent_uop = (s.reg_version r v).parent_uop := by
  rcases Nat.lt_or_ge v (s.reg_last_version r) with h | h
  · rw [hg.old r v h]
  · rw [Nat.le_antisymm hv h]
    exact hg.parent_uop r

theorem deadList_step (hi : Inv us s) (hg : GenStep u s s') {l : List (IReg × Nat)}
    (hl : DeadList us s l) : ∃ l', DeadList (us ++ [u]) s' l' := by
  have hold : ∀ p ∈ l, s'.reg_version p.1 p.2 = s.reg_version p.1 p.2 :=
    fun p hp => hg.old p.1 p.2 (hl.below p hp).2
  have hwalk : Walk (nextDead s') s.reg_dead_list l := by
    apply walk_congr _ hl.walk
    intro p hp
    unfold nextDead
    rw [hold p hp]
  have hbelow : ∀ p ∈ l, 0 < p.2 ∧ p.2 < s'.reg_last_version p.1 := fun p hp =>
    ⟨(hl.below p hp).1, Nat.lt_of_lt_of_le (hl.below p hp).2 (last_le hg p.1)⟩
  have hrc : ∀ p ∈ l, (s'.reg_version p.1 p.2).refcount = 0 := by
    intro p hp
    rw [hold p hp]
    exact hl.refcount p hp
  have hdead : ∀ p ∈ l, DeadAt (us ++ [u]) p.1 (s'.reg_version p.1 p.2).parent_uop
      (s'.reg_version p.1 (p.2 + 1)).parent_uop := by
    intro p hp
    rw [hold p hp, parent_same hg (hl.below p hp).2]
    have h := hl.dead p hp
    exact (deadAt_snoc_lt h.second.lt).mpr h
  have hcomplete : ∀ r j w, DeadAt (us ++ [u]) r j w → w < us.length →
      ∃ v, (r, v) ∈ l ∧ (s'.reg_version r v).parent_uop = j := by
    intro r j w h hw
    obtain ⟨v, hv, hp⟩ := hl.complete r j w ((deadAt_snoc_lt hw).mp h)
    exact ⟨v, hv, by rw [hold (r, v) hv, hp]⟩
  have hw : ∀ r j w, DeadAt (us ++ [u]) r j w → w < us.length ∨ w = us.length := by
    intro r j w h
    have := h.second.lt
    rw [List.length_append, List.length_singleton] at this
    omega
  by_cases hk : ∃ r, Kills u s r
  · obtain ⟨r, hk⟩ := hk
    have h0 : 0 < s.reg_last_version r := Nat.pos_of_ne_zero hk.2.1
    obtain ⟨hd1, hd2⟩ := hg.dies r hk
    have hwr : u.Writes r := by
      obtain ⟨-, -, -, -, -, op, h1, h2, -⟩ := hk
      exact ⟨op, h1, h2⟩
    have hwrite := hg.write r hwr
    have hdeadr := (kills_iff hi h0).mp hk
    refine ⟨(r, s.reg_last_version r) :: l, ⟨⟨hd1, ?_⟩, ?_, ?_, ?_, ?_, ?_⟩⟩
    · unfold nextDead
      rw [hd2]
      exact hwalk
    · rw [List.nodup_cons]
      refine ⟨?_, hl.nodup⟩
      intro hm
      exact absurd (hl.below _ hm).2 (Nat.lt_irrefl _)
    · intro p hp
      rcases List.mem_cons.mp hp with rfl | hp
      · exact ⟨h0, by rw [hwrite.2.1]; exact Nat.lt_succ_self _⟩
      · exact hbelow p hp
    · intro p hp
      rcases List.mem_cons.mp hp with rfl | hp
      · exact (hg.refcount r).mpr ⟨hk.2.2.1, hk.2.2.2.1⟩
      · exact hrc p hp
    · intro p hp
      rcases List.mem_cons.mp hp with rfl | hp
      · show DeadAt _ r (s'.reg_version r (s.reg_last_version r)).parent_uop
          (s'.reg_version r (s.reg_last_version r + 1)).parent_uop
        rw [hg.parent_uop r, hwrite.2.2.2.2.2, hi.wr_pos]
        exact hdeadr
      · exact hdead p hp
    · intro r' j w h
      rcases hw r' j w h with hlt | rfl
      · obtain ⟨v, hv, hp⟩ := hcomplete r' j w h hlt
        exact ⟨v, List.mem_cons_of_mem _ hv, hp⟩
      · obtain ⟨h0', rfl⟩ := writer_of_deadAt hi h
        obtain rfl := kills_unique hk ((kills_iff hi h0').mpr h)
        exact ⟨_, List.mem_cons_self, hg.parent_uop r⟩
  · have hno : ∀ r, ¬Kills u s r := fun r hr => hk ⟨r, hr⟩
    refine ⟨l, ⟨?_, hl.nodup, hbelow, hrc, hdead, ?_⟩⟩
    · rw [hg.lives hno]
      exact hwalk
    · intro r j w h
      rcases hw r j w h with hlt | rfl
      · exact hcomplete r j w h hlt
      · obtain ⟨h0, rfl⟩ := writer_of_deadAt hi h
        exact absurd ((kills_iff hi h0).mpr h) (hno r)

theorem hasSource_uopOf {ir : IrReg} (h : (uopOf u s).HasSource ir) :
    ir.version = s.reg_last_version ir.reg ∧ u.Reads ir.reg := by
  have hone : ∀ {o : Option Operand},
      (o.map fun op => (⟨op, s.reg_last_version op.reg⟩ : IrReg)) = some ir →
      ir.version = s.reg_last_version ir.reg ∧ o.map Operand.reg = some ir.reg := by
    intro o ho
    obtain ⟨op, rfl, rfl⟩ := Option.map_eq_some_iff.mp ho
    exact ⟨rfl, rfl⟩
  rcases h with h | h | h
  · exact ⟨(hone h).1, Or.inl (hone h).2⟩
  · exact ⟨(hone h).1, Or.inr (Or.inl (hone h).2)⟩
  · exact ⟨(hone h).1, Or.inr (Or.inr (hone h).2)⟩

theorem not_at_snoc {i : Nat} {P : UopCall → Prop} (hlt : us.length < i) : ¬At (us ++ [u]) i P :=
  fun h => by
    have hle := h.lt
    rw [List.length_append, List.length_singleton] at hle
    omega

/-! ### The uops in the table -/

theorem uops_before (hi : Inv us s) (hg : GenStep u s s') {i : Nat} (hlt : i < us.length) :
    s'.uops i = s.uops i := by
  rw [hg.uops, Function.update_of_ne (by rw [hi.wr_pos]; omega)]

theorem uops_new (hi : Inv us s) (hg : GenStep u s s') : s'.uops us.length = uopOf u s := by
  rw [hg.uops, ← hi.wr_pos, Function.update_self]

theorem type_step (hi : Inv us s) (hg : GenStep u s s') (i : Nat) (v : UopCall)
    (hv : (us ++ [u])[i]? = some v) : (s'.uops i).type = v.type := by
  have hlt : i < us.length + 1 := by
    have hlt := (List.getElem?_eq_some_iff.mp hv).1
    rwa [List.length_append, List.length_singleton] at hlt
  rcases Nat.lt_succ_iff_lt_or_eq.mp hlt with hlt | rfl
  · rw [List.getElem?_append_left hlt] at hv
    rw [uops_before hi hg hlt]
    exact hi.type i v hv
  · rw [List.getElem?_append_right (Nat.le_refl _)] at hv
    rw [uops_new hi hg]
    simp only [Nat.sub_self, List.getElem?_cons_zero, Option.some.injEq] at hv
    rw [← hv]
    rfl

/-! ### The last version of a register -/

/-- A write makes a version, of the new uop. -/
theorem last_written (hi : Inv us s) (hg : GenStep u s s') {r : IReg} (hu : u.Writes r) :
    s'.reg_last_version r = s.reg_last_version r + 1 ∧
      (s'.reg_version r (s'.reg_last_version r)).parent_uop = us.length := by
  obtain ⟨-, hlast, -, -, -, hparent⟩ := hg.write r hu
  rw [hlast, hparent, hi.wr_pos]
  exact ⟨rfl, rfl⟩

/-- Without a write the last version and the uop that wrote it are the same. -/
theorem last_kept (hg : GenStep u s s') {r : IReg} (hu : ¬u.Writes r) :
    s'.reg_last_version r = s.reg_last_version r ∧
      (s'.reg_version r (s'.reg_last_version r)).parent_uop =
        (s.reg_version r (s.reg_last_version r)).parent_uop := by
  rw [(hg.keep r hu).1]
  exact ⟨rfl, hg.parent_uop r⟩

theorem bound_step (hi : Inv us s) (hg : GenStep u s s') (r : IReg) :
    s'.reg_last_version r ≤ 255 := by
  by_cases hu : u.Writes r
  · rw [(hg.write r hu).2.1]
    exact (hg.write r hu).1
  · rw [(hg.keep r hu).1]
    exact hi.bound r

theorem unwritten_step (hi : Inv us s) (hg : GenStep u s s') (r : IReg)
    (h0 : s'.reg_last_version r = 0) (i : Nat) : ¬At (us ++ [u]) i (·.Writes r) := by
  intro hw
  by_cases hu : u.Writes r
  · rw [(last_written hi hg hu).1] at h0
    exact Nat.succ_ne_zero _ h0
  · rw [(last_kept hg hu).1] at h0
    rcases at_snoc.mp hw with hw | ⟨-, hw⟩
    · exact hi.unwritten r h0 i hw
    · exact hu hw

theorem writer_step (hi : Inv us s) (hg : GenStep u s s') (r : IReg)
    (h0 : 0 < s'.reg_last_version r) :
    At (us ++ [u]) (s'.reg_version r (s'.reg_last_version r)).parent_uop (·.Writes r) := by
  by_cases hu : u.Writes r
  · rw [(last_written hi hg hu).2]
    exact at_snoc.mpr (Or.inr ⟨rfl, hu⟩)
  · rw [(last_kept hg hu).1] at h0
    rw [(last_kept hg hu).2]
    exact at_snoc.mpr (Or.inl (hi.writer r h0))

theorem last_step (hi : Inv us s) (hg : GenStep u s s') (r : IReg)
    (h0 : 0 < s'.reg_last_version r) (i : Nat)
    (hlt : (s'.reg_version r (s'.reg_last_version r)).parent_uop < i) :
    ¬At (us ++ [u]) i (·.Writes r) := by
  by_cases hu : u.Writes r
  · rw [(last_written hi hg hu).2] at hlt
    exact not_at_snoc hlt
  · rw [(last_kept hg hu).1] at h0
    rw [(last_kept hg hu).2] at hlt
    intro hw
    rcases at_snoc.mp hw with hw | ⟨-, hw⟩
    · exact hi.last r h0 i hlt hw
    · exact hu hw

theorem idle_step (hi : Inv us s) (hg : GenStep u s s') (r : IReg)
    (h0 : 0 < s'.reg_last_version r) :
    (s'.reg_version r (s'.reg_last_version r)).refcount = 0 ↔
      ∀ i, (s'.reg_version r (s'.reg_last_version r)).parent_uop < i →
        ¬At (us ++ [u]) i (·.Reads r) := by
  by_cases hu : u.Writes r
  · obtain ⟨-, hlast, -, hrefs, -, -⟩ := hg.write r hu
    rw [(last_written hi hg hu).2, hlast]
    exact iff_of_true hrefs fun i hlt => not_at_snoc hlt
  · rw [(last_kept hg hu).1] at h0
    rw [(last_kept hg hu).2, (last_kept hg hu).1, hg.refcount r, hi.idle r h0]
    constructor
    · rintro ⟨hbefore, hnow⟩ i hlt hr
      rcases at_snoc.mp hr with hr | ⟨-, hr⟩
      · exact hbefore i hlt hr
      · exact hnow hr
    · intro hno
      refine ⟨fun i hlt hr => hno i hlt (at_snoc.mpr (Or.inl hr)), fun hr => ?_⟩
      exact hno us.length (parent_lt hi h0) (at_snoc.mpr (Or.inr ⟨rfl, hr⟩))

theorem dirty_step (hi : Inv us s) (hg : GenStep u s s') (r : IReg)
    (h0 : 0 < s'.reg_last_version r) :
    s'.dirty_ir_regs r = true ↔
      ∃ i, (s'.reg_version r (s'.reg_last_version r)).parent_uop < i ∧
        At (us ++ [u]) i IsBarrier := by
  by_cases hu : u.Writes r
  · rw [(last_written hi hg hu).2, (hg.write r hu).2.2.1]
    exact iff_of_false Bool.false_ne_true fun ⟨i, hlt, hb⟩ => not_at_snoc hlt hb
  · rw [(last_kept hg hu).1] at h0
    rw [(last_kept hg hu).2, (hg.keep r hu).2.1, Bool.or_eq_true, hi.dirty r h0]
    constructor
    · rintro (hb | ⟨i, hlt, hb⟩)
      · exact ⟨us.length, parent_lt hi h0, at_snoc.mpr (Or.inr ⟨rfl, hb⟩)⟩
      · exact ⟨i, hlt, at_snoc.mpr (Or.inl hb)⟩
    · rintro ⟨i, hlt, hb⟩
      rcases at_snoc.mp hb with hb | ⟨-, hb⟩
      · exact Or.inr ⟨i, hlt, hb⟩
      · exact Or.inl hb

theorem required_step (hg : GenStep u s s') (r : IReg) (h0 : 0 < s'.reg_last_version r) :
    (s'.reg_version r (s'.reg_last_version r)).required = false := by
  by_cases hu : u.Writes r
  · obtain ⟨-, hlast, -, -, hreq, -⟩ := hg.write r hu
    rw [hlast]
    exact hreq
  · rw [(last_kept hg hu).1] at h0 ⊢
    exact (hg.keep r hu).2.2 h0

/-! ### The versions that the uops name -/

theorem source_step (hi : Inv us s) (hg : GenStep u s s') (i : Nat) (hlt : i < us.length + 1)
    (ir : IrReg) (hir : (s'.uops i).HasSource ir) :
    ir.version ≤ s'.reg_last_version ir.reg ∧
      (s'.reg_version ir.reg ir.version).refcount ≠ 0 := by
  rcases Nat.lt_succ_iff_lt_or_eq.mp hlt with hlt | rfl
  · rw [uops_before hi hg hlt] at hir
    obtain ⟨hle, hrefs⟩ := hi.source i hlt ir hir
    refine ⟨Nat.le_trans hle (last_le hg _), ?_⟩
    rcases Nat.lt_or_ge ir.version (s.reg_last_version ir.reg) with hv | hv
    · rw [hg.old _ _ hv]
      exact hrefs
    · have he := Nat.le_antisymm hle hv
      rw [he] at hrefs ⊢
      exact fun h => hrefs ((hg.refcount ir.reg).mp h).1
  · rw [uops_new hi hg] at hir
    obtain ⟨hversion, hreads⟩ := hasSource_uopOf hir
    rw [hversion]
    exact ⟨last_le hg _, fun h => ((hg.refcount ir.reg).mp h).2 hreads⟩

theorem dest_step (hi : Inv us s) (hg : GenStep u s s') (i : Nat) (hlt : i < us.length + 1)
    (ir : IrReg) (hir : (s'.uops i).dest_reg_a = some ir) :
    0 < ir.version ∧ ir.version ≤ s'.reg_last_version ir.reg ∧
      (s'.reg_version ir.reg ir.version).parent_uop = i ∧
      At (us ++ [u]) i fun u => u.dest = some ir.toOperand := by
  rcases Nat.lt_succ_iff_lt_or_eq.mp hlt with hlt | rfl
  · rw [uops_before hi hg hlt] at hir
    obtain ⟨hpos, hle, hparent, hdest⟩ := hi.dest i hlt ir hir
    refine ⟨hpos, Nat.le_trans hle (last_le hg _), ?_, at_snoc.mpr (Or.inl hdest)⟩
    rw [parent_same hg hle]
    exact hparent
  · rw [uops_new hi hg] at hir
    obtain ⟨op, hop, rfl⟩ := Option.map_eq_some_iff.mp hir
    have hlast := (hg.write op.reg ⟨op, hop, rfl⟩).2.1
    have hparent := (last_written hi hg ⟨op, hop, rfl⟩).2
    rw [hlast] at hparent
    exact ⟨Nat.succ_pos _, Nat.le_of_eq hlast.symm, hparent, at_snoc.mpr (Or.inr ⟨rfl, hop⟩)⟩

theorem written_step (hi : Inv us s) (hg : GenStep u s s') (r : IReg) (v : Nat) (h0 : 0 < v)
    (hv : v ≤ s'.reg_last_version r) :
    (s'.reg_version r v).parent_uop < us.length + 1 ∧
      ∃ ir, (s'.uops (s'.reg_version r v).parent_uop).dest_reg_a = some ir ∧ ir.reg = r ∧
        ir.version = v := by
  rcases Nat.lt_or_ge (s.reg_last_version r) v with hlt | hle
  · have hw : u.Writes r := by
      by_contra hw
      rw [(hg.keep r hw).1] at hv
      omega
    obtain ⟨-, hlast, -, -, -, hparent⟩ := hg.write r hw
    obtain ⟨op, hop, rfl⟩ := hw
    have hv' : v = s.reg_last_version op.reg + 1 := by omega
    rw [hv', hparent, hi.wr_pos, uops_new hi hg]
    refine ⟨Nat.lt_succ_self _, ⟨op, s.reg_last_version op.reg + 1⟩, ?_, rfl, rfl⟩
    unfold uopOf
    rw [hop]
    rfl
  · rw [parent_same hg hle]
    obtain ⟨hlt, h⟩ := hi.written r v h0 hle
    rw [uops_before hi hg hlt]
    exact ⟨Nat.lt_succ_of_lt hlt, h⟩

theorem gen_inv (hi : Inv us s) (h : uop_gen u s = some s') : Inv (us ++ [u]) s' := by
  have hg := gen_step hi.bound hi.required h
  have hlen : (us ++ [u]).length = us.length + 1 := List.length_append
  obtain ⟨l, hl⟩ := hi.dead
  exact
    { wr_pos := by rw [hg.wr_pos, hi.wr_pos, hlen]
      type := type_step hi hg
      bound := bound_step hi hg
      unwritten := unwritten_step hi hg
      writer := writer_step hi hg
      last := last_step hi hg
      idle := idle_step hi hg
      dirty := dirty_step hi hg
      required := required_step hg
      dead := deadList_step hi hg hl
      source := by
        rw [hlen]
        exact source_step hi hg
      dest := by
        rw [hlen]
        exact dest_step hi hg
      written := by
        rw [hlen]
        exact written_step hi hg }

theorem build_inv {us us' : List UopCall} {s s' : RegState} (hi : Inv us s)
    (h : build us' s = some s') : Inv (us ++ us') s' := by
  induction us' generalizing us s with
  | nil =>
    obtain rfl := Option.some.inj h
    rwa [List.append_nil]
  | cons u us' ih =>
    simp only [build, Option.bind_eq_some_iff] at h
    obtain ⟨s₁, h1, h2⟩ := h
    have := ih (gen_inv hi h1) h2
    rwa [List.append_assoc] at this

end

end blumach.codegen_reg
