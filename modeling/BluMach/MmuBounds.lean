-- Where a walk looks into the map of the host, which has one place for each page of 4GB. An entry
-- of PAE can name a table behind that, and then the walk goes on behind the end of the map.
import BluMach.MmuArchLaws

namespace blumach.mmu

/-! ## The places -/

def MEM_MAPPINGS_NO : Nat := (0x100000 >>> 12) <<< 12

/-- `x >> MEM_GRANULARITY_BITS`, the place in `_mem_exec` that `rammap(x)` looks at. -/
def mapIndex (x : BitVec 64) : Nat := (x >>> 12).toNat

/-- The arguments of `rammap` in `mmutranslate_noabrt_normal`, in order. -/
def normalTables (addr : BitVec 32) (s : MmuState) : List (BitVec 64) :=
  if s.abrt ≠ 0 then []
  else
    let addr2 := (s.cr3 &&& ~~~0xfff#32) + ((addr >>> 20) &&& 0xffc)
    let temp2 := rammap addr2 s
    if temp2 &&& 1 = 0 then [addr2.setWidth 64]
    else if temp2 &&& 0x80 ≠ 0 ∧ s.cr4 &&& CR4_PSE ≠ 0 then [addr2.setWidth 64]
    else [addr2.setWidth 64, ((temp2 &&& ~~~0xfff#32) + ((addr >>> 10) &&& 0xffc)).setWidth 64]

/-- The arguments of `rammap64` in `mmutranslate_noabrt_pae`, in order. -/
def paeTables (addr : BitVec 32) (s : MmuState) : List (BitVec 64) :=
  if s.abrt ≠ 0 then []
  else
    let addr2 := ((s.cr3 &&& ~~~0x1f#32) + ((addr >>> 27) &&& 0x18)).setWidth 64
    let temp2 := rammap64 addr2 s &&& 0x000000ffffffffff
    if temp2 &&& 1 = 0 then [addr2]
    else
      let addr3 := (temp2 &&& ~~~0xfff#64) + ((addr >>> 18) &&& 0xff8).setWidth 64
      let temp4 := rammap64 addr3 s &&& 0x000000ffffffffff
      if temp4 &&& 1 = 0 then [addr2, addr3]
      else if temp4 &&& 0x80 ≠ 0 then [addr2, addr3]
      else [addr2, addr3, (temp4 &&& ~~~0xfff#64) + ((addr >>> 9) &&& 0xff8).setWidth 64]

def mmutranslate_noabrt_tables (addr : BitVec 32) (s : MmuState) : List (BitVec 64) :=
  if s.cr4 &&& CR4_PAE ≠ 0 then paeTables addr s else normalTables addr s

/-- `mmutranslatereal` looks at the same places, and once more for the bits that it sets: all of
them but that of the first level of PAE. -/
def mmutranslatereal_tables (addr : BitVec 32) (rw : Bool) (s : MmuState) : List (BitVec 64) :=
  mmutranslate_noabrt_tables addr s ++
    (if (mmutranslatereal addr rw s).2 = PHYS_INVALID then []
    else if s.cr4 &&& CR4_PAE ≠ 0 then (paeTables addr s).tail
    else normalTables addr s)

/-! ## A walk looks nowhere else -/

def MmuState.withMap (f : Nat → Option Nat) (s : MmuState) : MmuState := { s with _mem_exec := f }

/-- The same result, in a state with another map. -/
def inMap (f : Nat → Option Nat) (r : MmuState × BitVec 64) : MmuState × BitVec 64 :=
  (r.1.withMap f, r.2)

section

variable {f : Nat → Option Nat} {s : MmuState} {addr : BitVec 32} {rw : Bool}

theorem inMap_ite {p : Prop} [Decidable p] (a b : MmuState × BitVec 64) :
    inMap f (if p then a else b) = if p then inMap f a else inMap f b :=
  apply_ite (inMap f) p a b

theorem rammapIndex_withMap {x : BitVec 32}
    (h : f (mapIndex (x.setWidth 64)) = s._mem_exec (mapIndex (x.setWidth 64))) :
    rammapIndex x (s.withMap f) = rammapIndex x s := by
  unfold rammapIndex rammap_backing
  unfold mapIndex at h
  rw [← h]
  rfl

theorem rammap64Index_withMap {x : BitVec 64} (h : f (mapIndex x) = s._mem_exec (mapIndex x)) :
    rammap64Index x (s.withMap f) = rammap64Index x s := by
  unfold rammap64Index rammap_backing
  unfold mapIndex at h
  rw [← h]
  rfl

theorem rammap_withMap {x : BitVec 32}
    (h : f (mapIndex (x.setWidth 64)) = s._mem_exec (mapIndex (x.setWidth 64))) :
    rammap x (s.withMap f) = rammap x s := by
  unfold rammap
  rw [rammapIndex_withMap h]
  rfl

theorem rammap64_withMap {x : BitVec 64} (h : f (mapIndex x) = s._mem_exec (mapIndex x)) :
    rammap64 x (s.withMap f) = rammap64 x s := by
  unfold rammap64
  rw [rammap64Index_withMap h]
  rfl

theorem rammapOr_withMap {x bits : BitVec 32}
    (h : f (mapIndex (x.setWidth 64)) = s._mem_exec (mapIndex (x.setWidth 64))) :
    rammapOr x bits (s.withMap f) = (rammapOr x bits s).withMap f := by
  unfold rammapOr
  rw [rammap_withMap h, rammapIndex_withMap h]
  rfl

theorem rammap64Or_withMap {x : BitVec 64} {bits : BitVec 32}
    (h : f (mapIndex x) = s._mem_exec (mapIndex x)) :
    rammap64Or x bits (s.withMap f) = (rammap64Or x bits s).withMap f := by
  unfold rammap64Or
  rw [rammap64Index_withMap h]
  rfl

/-- What holds of all the tables of a walk holds of each one that it comes to. -/
theorem normalTables_all {P : BitVec 64 → Prop} (h : ∀ x ∈ normalTables addr s, P x)
    (hab : ¬s.abrt ≠ 0) :
    let addr2 := (s.cr3 &&& ~~~0xfff#32) + ((addr >>> 20) &&& 0xffc)
    let temp2 := rammap addr2 s
    P (addr2.setWidth 64) ∧ (¬temp2 &&& 1 = 0 → ¬(temp2 &&& 0x80 ≠ 0 ∧ s.cr4 &&& CR4_PSE ≠ 0) →
      P (((temp2 &&& ~~~0xfff#32) + ((addr >>> 10) &&& 0xffc)).setWidth 64)) := by
  unfold normalTables at h
  rw [if_neg hab] at h
  dsimp only at h ⊢
  constructor
  · apply h
    split_ifs <;> simp
  · intro hp hl
    rw [if_neg hp, if_neg hl] at h
    exact h _ (List.mem_cons_of_mem _ (List.mem_singleton_self _))

theorem paeTables_all {P : BitVec 64 → Prop} (h : ∀ x ∈ paeTables addr s, P x)
    (hab : ¬s.abrt ≠ 0) :
    let addr2 : BitVec 64 := ((s.cr3 &&& ~~~0x1f#32) + ((addr >>> 27) &&& 0x18)).setWidth 64
    let temp2 := rammap64 addr2 s &&& 0x000000ffffffffff
    let addr3 := (temp2 &&& ~~~0xfff#64) + ((addr >>> 18) &&& 0xff8).setWidth 64
    let temp4 := rammap64 addr3 s &&& 0x000000ffffffffff
    P addr2 ∧ (¬temp2 &&& 1 = 0 → P addr3 ∧ (¬temp4 &&& 1 = 0 → ¬temp4 &&& 0x80 ≠ 0 →
      P ((temp4 &&& ~~~0xfff#64) + ((addr >>> 9) &&& 0xff8).setWidth 64))) := by
  unfold paeTables at h
  rw [if_neg hab] at h
  dsimp only at h ⊢
  refine ⟨?_, fun hp => ⟨?_, fun hd hl => ?_⟩⟩
  · apply h
    split_ifs <;> simp
  · rw [if_neg hp] at h
    apply h
    split_ifs <;> simp
  · rw [if_neg hp, if_neg hd, if_neg hl] at h
    exact h _ (List.mem_cons_of_mem _ (List.mem_cons_of_mem _ (List.mem_singleton_self _)))

theorem noabrt_normal_reads
    (h : ∀ x ∈ normalTables addr s, f (mapIndex x) = s._mem_exec (mapIndex x)) :
    mmutranslate_noabrt_normal addr rw (s.withMap f) =
      inMap f (mmutranslate_noabrt_normal addr rw s) := by
  unfold mmutranslate_noabrt_normal
  have habrt : (s.withMap f).abrt = s.abrt := rfl
  have hcr3 : (s.withMap f).cr3 = s.cr3 := rfl
  rw [habrt, hcr3]
  dsimp only
  by_cases hab : s.abrt ≠ 0
  · rw [if_pos hab, if_pos hab]
    rfl
  rw [if_neg hab, if_neg hab]
  obtain ⟨h2, hnext⟩ := normalTables_all h hab
  generalize (s.cr3 &&& ~~~0xfff#32) + ((addr >>> 20) &&& 0xffc) = addr2 at h2 hnext ⊢
  rw [rammap_withMap h2]
  generalize rammap addr2 s = temp2 at hnext ⊢
  by_cases hp : temp2 &&& 1 = 0
  · rw [if_pos hp, if_pos hp]
    rfl
  rw [if_neg hp, if_neg hp]
  by_cases hl : temp2 &&& 0x80 ≠ 0 ∧ s.cr4 &&& CR4_PSE ≠ 0
  · rw [if_pos hl, inMap_ite]
    exact if_pos hl
  · have h3 := hnext hp hl
    rw [if_neg hl]
    refine (if_neg hl).trans ?_
    rw [rammap_withMap h3, inMap_ite]
    rfl

theorem real_normal_reads
    (h : ∀ x ∈ normalTables addr s, f (mapIndex x) = s._mem_exec (mapIndex x)) :
    mmutranslatereal_normal addr rw (s.withMap f) =
      inMap f (mmutranslatereal_normal addr rw s) := by
  unfold mmutranslatereal_normal
  have habrt : (s.withMap f).abrt = s.abrt := rfl
  have hcr3 : (s.withMap f).cr3 = s.cr3 := rfl
  rw [habrt, hcr3]
  dsimp only
  by_cases hab : s.abrt ≠ 0
  · rw [if_pos hab, if_pos hab]
    rfl
  rw [if_neg hab, if_neg hab]
  obtain ⟨h2, hnext⟩ := normalTables_all h hab
  generalize (s.cr3 &&& ~~~0xfff#32) + ((addr >>> 20) &&& 0xffc) = addr2 at h2 hnext ⊢
  rw [rammap_withMap h2, rammapOr_withMap h2, rammapOr_withMap h2]
  generalize rammap addr2 s = temp2 at hnext ⊢
  by_cases hp : temp2 &&& 1 = 0
  · rw [if_pos hp, if_pos hp]
    rfl
  rw [if_neg hp, if_neg hp]
  by_cases hl : temp2 &&& 0x80 ≠ 0 ∧ s.cr4 &&& CR4_PSE ≠ 0
  · rw [if_pos hl, inMap_ite]
    exact if_pos hl
  · have h3 := hnext hp hl
    rw [if_neg hl]
    refine (if_neg hl).trans ?_
    have h3' : f (mapIndex (((temp2 &&& ~~~0xfff#32) + ((addr >>> 10) &&& 0xffc)).setWidth 64)) =
        (rammapOr addr2 0x20 s)._mem_exec
          (mapIndex (((temp2 &&& ~~~0xfff#32) + ((addr >>> 10) &&& 0xffc)).setWidth 64)) := h3
    rw [rammap_withMap h3, rammapOr_withMap h3', inMap_ite]
    rfl

theorem noabrt_pae_reads
    (h : ∀ x ∈ paeTables addr s, f (mapIndex x) = s._mem_exec (mapIndex x)) :
    mmutranslate_noabrt_pae addr rw (s.withMap f) =
      inMap f (mmutranslate_noabrt_pae addr rw s) := by
  unfold mmutranslate_noabrt_pae
  have habrt : (s.withMap f).abrt = s.abrt := rfl
  have hcr3 : (s.withMap f).cr3 = s.cr3 := rfl
  rw [habrt, hcr3]
  dsimp only
  by_cases hab : s.abrt ≠ 0
  · rw [if_pos hab, if_pos hab]
    rfl
  rw [if_neg hab, if_neg hab]
  obtain ⟨h2, hnext⟩ := paeTables_all h hab
  generalize (((s.cr3 &&& ~~~0x1f#32) + ((addr >>> 27) &&& 0x18)).setWidth 64 : BitVec 64) = addr2
    at h2 hnext ⊢
  rw [rammap64_withMap h2]
  generalize rammap64 addr2 s &&& 0x000000ffffffffff = temp2 at hnext ⊢
  by_cases hp : temp2 &&& 1 = 0
  · rw [if_pos hp, if_pos hp]
    rfl
  rw [if_neg hp, if_neg hp]
  obtain ⟨h3, hlast⟩ := hnext hp
  generalize (temp2 &&& ~~~0xfff#64) + ((addr >>> 18) &&& 0xff8).setWidth 64 = addr3 at h3 hlast ⊢
  rw [rammap64_withMap h3]
  generalize rammap64 addr3 s &&& 0x000000ffffffffff = temp4 at hlast ⊢
  by_cases hd : temp4 &&& 1 = 0
  · rw [if_pos hd, if_pos hd]
    rfl
  rw [if_neg hd, if_neg hd]
  by_cases hl : temp4 &&& 0x80 ≠ 0
  · rw [if_pos hl, if_pos hl, inMap_ite]
    rfl
  · have h4 := hlast hd hl
    rw [if_neg hl, if_neg hl]
    rw [rammap64_withMap h4, inMap_ite]
    rfl

theorem real_pae_reads
    (h : ∀ x ∈ paeTables addr s, f (mapIndex x) = s._mem_exec (mapIndex x)) :
    mmutranslatereal_pae addr rw (s.withMap f) =
      inMap f (mmutranslatereal_pae addr rw s) := by
  unfold mmutranslatereal_pae
  have habrt : (s.withMap f).abrt = s.abrt := rfl
  have hcr3 : (s.withMap f).cr3 = s.cr3 := rfl
  rw [habrt, hcr3]
  dsimp only
  by_cases hab : s.abrt ≠ 0
  · rw [if_pos hab, if_pos hab]
    rfl
  rw [if_neg hab, if_neg hab]
  obtain ⟨h2, hnext⟩ := paeTables_all h hab
  generalize (((s.cr3 &&& ~~~0x1f#32) + ((addr >>> 27) &&& 0x18)).setWidth 64 : BitVec 64) = addr2
    at h2 hnext ⊢
  rw [rammap64_withMap h2]
  generalize rammap64 addr2 s &&& 0x000000ffffffffff = temp2 at hnext ⊢
  by_cases hp : temp2 &&& 1 = 0
  · rw [if_pos hp, if_pos hp]
    rfl
  rw [if_neg hp, if_neg hp]
  obtain ⟨h3, hlast⟩ := hnext hp
  generalize (temp2 &&& ~~~0xfff#64) + ((addr >>> 18) &&& 0xff8).setWidth 64 = addr3 at h3 hlast ⊢
  rw [rammap64_withMap h3, rammap64Or_withMap h3, rammap64Or_withMap h3]
  generalize rammap64 addr3 s &&& 0x000000ffffffffff = temp4 at hlast ⊢
  by_cases hd : temp4 &&& 1 = 0
  · rw [if_pos hd, if_pos hd]
    rfl
  rw [if_neg hd, if_neg hd]
  by_cases hl : temp4 &&& 0x80 ≠ 0
  · rw [if_pos hl, if_pos hl, inMap_ite]
    rfl
  · have h4 := hlast hd hl
    rw [if_neg hl, if_neg hl]
    have h4' : f (mapIndex ((temp4 &&& ~~~0xfff#64) + ((addr >>> 9) &&& 0xff8).setWidth 64)) =
        (rammap64Or addr3 0x20 s)._mem_exec
          (mapIndex ((temp4 &&& ~~~0xfff#64) + ((addr >>> 9) &&& 0xff8).setWidth 64)) := h4
    rw [rammap64_withMap h4, rammap64Or_withMap h4', inMap_ite]
    rfl

/-- The two walkers see nothing of the map but the places of their tables. -/
theorem walks_read (h : ∀ x ∈ mmutranslate_noabrt_tables addr s,
      f (mapIndex x) = s._mem_exec (mapIndex x)) :
    mmutranslate_noabrt addr rw (s.withMap f) = inMap f (mmutranslate_noabrt addr rw s) ∧
      mmutranslatereal addr rw (s.withMap f) = inMap f (mmutranslatereal addr rw s) := by
  unfold mmutranslate_noabrt_tables at h
  unfold mmutranslate_noabrt mmutranslatereal
  rw [inMap_ite, inMap_ite, inMap_ite, inMap_ite]
  by_cases hpae : s.cr4 &&& CR4_PAE ≠ 0
  · rw [if_pos hpae] at h
    rw [if_pos hpae, if_pos hpae, ← noabrt_pae_reads h, ← real_pae_reads h]
    constructor
    · exact congrArg _ (if_pos hpae)
    · exact congrArg _ (if_pos hpae)
  · rw [if_neg hpae] at h
    rw [if_neg hpae, if_neg hpae, ← noabrt_normal_reads h, ← real_normal_reads h]
    constructor
    · exact congrArg _ (if_neg hpae)
    · exact congrArg _ (if_neg hpae)

end

/-! ## The end of the map -/

/-- Without PAE every table is below 4GB. With it, the entries that name one must do so. -/
def TablesInMap (addr : BitVec 32) (s : MmuState) : Prop :=
  s.abrt ≠ 0 ∨ s.cr4 &&& CR4_PAE = 0 ∨
    let pdpte := entry64 s (2 ^ 5 * (s.cr3.toNat / 2 ^ 5) + 8 * (addr.toNat / 2 ^ 30))
    let pde := entry64 s (2 ^ 12 * frame pdpte 12 + 8 * (addr.toNat / 2 ^ 21 % 2 ^ 9))
    present pdpte = true →
      frame pdpte 12 < 2 ^ 20 ∧ (present pde = true → large pde = false → frame pde 12 < 2 ^ 20)

section

variable {s : MmuState} {addr : BitVec 32} {rw : Bool}

theorem mapIndex_eq (x : BitVec 64) : mapIndex x = x.toNat / 2 ^ 12 := by
  unfold mapIndex
  rw [BitVec.toNat_ushiftRight, Nat.shiftRight_eq_div_pow]

theorem mapIndex_low (x : BitVec 32) : mapIndex (x.setWidth 64) < MEM_MAPPINGS_NO := by
  have hno : MEM_MAPPINGS_NO = 2 ^ 20 := by decide
  have hlt := x.isLt
  rw [mapIndex_eq, hno, BitVec.toNat_setWidth]
  omega

theorem normal_inMap : ∀ x ∈ normalTables addr s, mapIndex x < MEM_MAPPINGS_NO := by
  intro x hx
  unfold normalTables at hx
  dsimp only at hx
  split_ifs at hx
  · simp at hx
  · rw [List.mem_singleton.mp hx]
    exact mapIndex_low _
  · rw [List.mem_singleton.mp hx]
    exact mapIndex_low _
  · rcases List.mem_cons.mp hx with hx | hx
    · rw [hx]
      exact mapIndex_low _
    · rw [List.mem_singleton.mp hx]
      exact mapIndex_low _

/-- The place of a table that an entry of PAE names is the frame of the entry. -/
theorem paeEntry_index (addr : BitVec 32) (e : BitVec 64) (j : Nat) {m : BitVec 32}
    (hm : bit_fields.IsMask 3 9 m) :
    mapIndex ((low40 e &&& ~~~0xfff#64) + ((addr >>> j) &&& m).setWidth 64) = frame e 12 := by
  rw [mapIndex_eq, paeEntry_at addr e j hm]
  omega

theorem pae_inMap (hpae : s.cr4 &&& CR4_PAE ≠ 0) :
    (∀ x ∈ paeTables addr s, mapIndex x < MEM_MAPPINGS_NO) ↔ TablesInMap addr s := by
  have hno : MEM_MAPPINGS_NO = 2 ^ 20 := by decide
  unfold paeTables TablesInMap
  by_cases hab : s.abrt ≠ 0
  · rw [if_pos hab]
    exact ⟨fun _ => Or.inl hab, fun _ x hx => absurd hx List.not_mem_nil⟩
  rw [if_neg hab, or_iff_right hab, or_iff_right hpae]
  dsimp only
  have hpointers := pointers_at s.cr3 addr
  have hfirst := mapIndex_low ((s.cr3 &&& ~~~0x1f#32) + ((addr >>> 27) &&& 0x18))
  generalize (((s.cr3 &&& ~~~0x1f#32) + ((addr >>> 27) &&& 0x18)).setWidth 64 : BitVec 64) = addr2
    at hpointers hfirst ⊢
  rw [hno] at hfirst ⊢
  rw [rammap64_eq (by omega), hpointers, low40_eq]
  generalize entry64 s (2 ^ 5 * (s.cr3.toNat / 2 ^ 5) + 8 * (addr.toNat / 2 ^ 30)) = pdpte
  by_cases hp : low40 pdpte &&& 1 = 0
  · have hp' := (present64 pdpte).mp hp
    rw [if_pos hp]
    simp only [List.mem_singleton, forall_eq, hfirst, hp', Bool.false_eq_true, false_imp_iff]
  have hp' : present pdpte = true :=
    Bool.eq_true_of_not_eq_false fun h => hp ((present64 pdpte).mpr h)
  rw [if_neg hp]
  have hmask : bit_fields.IsMask 3 9 (0xff8 : BitVec 32) := by decide
  have hsecond := paeEntry_index addr pdpte 18 hmask
  have hdirectory := paeEntry_at addr pdpte 18 hmask
  rw [show addr.toNat / 2 ^ 18 / 2 ^ 3 = addr.toNat / 2 ^ 21 by omega] at hdirectory
  generalize (low40 pdpte &&& ~~~0xfff#64) + ((addr >>> 18) &&& 0xff8).setWidth 64 = addr3
    at hsecond hdirectory ⊢
  rw [rammap64_eq (by omega), low40_eq, hdirectory]
  generalize entry64 s (2 ^ 12 * frame pdpte 12 + 8 * (addr.toNat / 2 ^ 21 % 2 ^ 9)) = pde
  have htwo : (∀ x ∈ [addr2, addr3], mapIndex x < 2 ^ 20) ↔ frame pdpte 12 < 2 ^ 20 := by
    simp only [List.mem_cons, List.not_mem_nil, or_false, forall_eq_or_imp, forall_eq, hfirst,
      hsecond, true_and]
  by_cases hd : low40 pde &&& 1 = 0
  · have hd' := (present64 pde).mp hd
    rw [if_pos hd, htwo]
    simp only [hp', hd', Bool.false_eq_true, false_imp_iff, and_true, true_imp_iff]
  have hd' : present pde = true :=
    Bool.eq_true_of_not_eq_false fun h => hd ((present64 pde).mpr h)
  rw [if_neg hd]
  by_cases hl : large pde = true
  · rw [if_pos ((large64 pde).mpr hl), htwo]
    simp only [hp', hl, Bool.true_eq_false, false_imp_iff, imp_true_iff, and_true, true_imp_iff]
  · have hl' : large pde = false := Bool.eq_false_of_not_eq_true hl
    have hthird := paeEntry_index addr pde 9 hmask
    rw [if_neg fun h => hl ((large64 pde).mp h)]
    simp only [List.mem_cons, List.not_mem_nil, or_false, forall_eq_or_imp, forall_eq, hfirst,
      hsecond, hthird, true_and, hp', hd', hl', true_imp_iff]

theorem noabrt_inMap :
    (∀ x ∈ mmutranslate_noabrt_tables addr s, mapIndex x < MEM_MAPPINGS_NO) ↔
      TablesInMap addr s := by
  unfold mmutranslate_noabrt_tables
  by_cases hpae : s.cr4 &&& CR4_PAE ≠ 0
  · rw [if_pos hpae]
    exact pae_inMap hpae
  · rw [if_neg hpae]
    exact ⟨fun _ => Or.inr (Or.inl (not_not.mp hpae)), fun _ => normal_inMap⟩

/-- The places that are looked at once more are among the others. -/
theorem real_tables {x : BitVec 64} :
    x ∈ mmutranslatereal_tables addr rw s ↔ x ∈ mmutranslate_noabrt_tables addr s := by
  unfold mmutranslatereal_tables
  rw [List.mem_append]
  refine ⟨fun h => h.elim id fun hx => ?_, Or.inl⟩
  unfold mmutranslate_noabrt_tables
  by_cases hfault : (mmutranslatereal addr rw s).2 = PHYS_INVALID
  · rw [if_pos hfault] at hx
    exact absurd hx List.not_mem_nil
  · rw [if_neg hfault] at hx
    split_ifs at hx ⊢
    · exact List.mem_of_mem_tail hx
    · exact hx

end

/-- The walkers look at the tables and at nothing else of the map, and they stay in the map
exactly if the entries name no table behind its end. -/
theorem the_walk_stays_in_the_map_iff (addr : BitVec 32) (rw : Bool) (s : MmuState) :
    (∀ f : Nat → Option Nat,
      (∀ x ∈ mmutranslate_noabrt_tables addr s, f (mapIndex x) = s._mem_exec (mapIndex x)) →
        mmutranslate_noabrt addr rw (s.withMap f) = inMap f (mmutranslate_noabrt addr rw s) ∧
        mmutranslatereal addr rw (s.withMap f) = inMap f (mmutranslatereal addr rw s)) ∧
    ((∀ x ∈ mmutranslatereal_tables addr rw s ++ mmutranslate_noabrt_tables addr s,
        mapIndex x < MEM_MAPPINGS_NO) ↔ TablesInMap addr s) := by
  refine ⟨fun f h => walks_read h, ?_⟩
  rw [← noabrt_inMap]
  constructor
  · intro h x hx
    exact h x (List.mem_append_right _ hx)
  · intro h x hx
    rcases List.mem_append.mp hx with hx | hx
    · exact h x (real_tables.mp hx)
    · exact h x hx

/-- PAE, and a first entry that is present and names the page at 4GB. -/
def tableAt4GB : MmuState where
  cr0 := 0x80000001
  cr2 := 0
  cr3 := 0
  cr4 := 0x20
  seg_cs_access := 0
  cpl_override := false
  is486 := true
  isibm486 := false
  cpu_features := 0
  abrt := 0
  abrt_error := 0
  _mem_exec page := some (page * 1024)
  mem_unbacked_pt_page := 0
  host i := if i < 2 then 1 else 0

theorem a_table_at_4GB_is_behind_the_map :
    ∃ x ∈ mmutranslatereal_tables 0 false tableAt4GB, ¬mapIndex x < MEM_MAPPINGS_NO := by
  refine ⟨0x100000000, ?_, by decide⟩
  decide

end blumach.mmu
