-- When the two page walkers agree. They read the same entries, and test the same bits
-- of them, but for one: below the 486 only one of them knows that WP does nothing.
import BluMach.Mmu

namespace blumach.mmu

/-! ## Results -/

/-- A result of `mmutranslate_noabrt` and one of `mmutranslatereal`, both from `s`, say
the same, and only the second has changed anything. -/
structure Agree (s : MmuState) (noabrt real : MmuState × BitVec 64) : Prop where
  failure : noabrt.2 = PHYS_INVALID ↔ real.2 = PHYS_INVALID
  abort : real.2 = PHYS_INVALID → real.1.abrt ≠ 0
  address : real.2 ≠ PHYS_INVALID → noabrt.2 = real.2
  untouched : noabrt.1 = s

/-- A write to a page without the write bit, by code above ring 3 with WP set, on a CPU
before the 486, with the entries that say so present. -/
def WritesPastWp (addr : BitVec 32) (rw : Bool) (s : MmuState) : Prop :=
  let temp2 := rammap ((s.cr3 &&& ~~~0xfff#32) + ((addr >>> 20) &&& 0xffc)) s
  let temp := rammap ((temp2 &&& ~~~0xfff#32) + ((addr >>> 10) &&& 0xffc)) s
  s.cr4 &&& CR4_PAE = 0 ∧ rw = true ∧ s.cpl_override = false ∧ CPL s ≠ 3 ∧
    ¬(s.is486 = true ∨ s.isibm486 = true) ∧ s.cr0 &&& WP_FLAG ≠ 0 ∧ temp2 &&& 1 ≠ 0 ∧
    (if temp2 &&& 0x80 ≠ 0 ∧ s.cr4 &&& CR4_PSE ≠ 0 then temp2 &&& 2 = 0
      else temp &&& 1 ≠ 0 ∧ (temp &&& temp2) &&& 2 = 0)

section

variable {s real : MmuState} {v : BitVec 64}

theorem agree_failure (h : real.abrt ≠ 0) : Agree s (s, PHYS_INVALID) (real, PHYS_INVALID) :=
  ⟨Iff.rfl, fun _ => h, fun _ => rfl, rfl⟩

theorem agree_address (h : v ≠ PHYS_INVALID) : Agree s (s, v) (real, v) :=
  ⟨Iff.rfl, fun hv => absurd hv h, fun _ => rfl, rfl⟩

/-- With the same address, two tests agree when they deny alike. -/
theorem agree_tests {denied_noabrt denied_real : Prop} [Decidable denied_noabrt]
    [Decidable denied_real] {fault : MmuState} (hf : fault.abrt ≠ 0) (hv : v ≠ PHYS_INVALID) :
    Agree s (if denied_noabrt then (s, PHYS_INVALID) else (s, v))
      (if denied_real then (fault, PHYS_INVALID) else (real, v)) ↔
        (denied_noabrt ↔ denied_real) := by
  by_cases hn : denied_noabrt
  · by_cases hr : denied_real
    · rw [if_pos hn, if_pos hr]
      exact ⟨fun _ => ⟨fun _ => hr, fun _ => hn⟩, fun _ => agree_failure hf⟩
    · rw [if_pos hn, if_neg hr]
      exact ⟨fun h => absurd (h.failure.mp rfl) hv, fun h => absurd (h.mp hn) hr⟩
  · by_cases hr : denied_real
    · rw [if_neg hn, if_pos hr]
      exact ⟨fun h => absurd (h.failure.mpr rfl) hv, fun h => absurd (h.mpr hr) hn⟩
    · rw [if_neg hn, if_neg hr]
      exact ⟨fun _ => ⟨fun h => absurd h hn, fun h => absurd h hr⟩, fun _ => agree_address hv⟩

end

theorem pageFault_abrt (addr : BitVec 32) (rw : Bool) (temp : BitVec 32) (s : MmuState) :
    (pageFault addr rw temp s).abrt ≠ 0 := by
  unfold pageFault
  have h : ABRT_PF ≠ 0 := by decide
  exact h

/-! ## An address is not the failure value -/

theorem ne_invalid_of_lt {v : BitVec 64} (h : v.toNat < 2 ^ 40) : v ≠ PHYS_INVALID := by
  intro hv
  rw [hv] at h
  exact absurd h (by decide)

theorem page4K_valid (a : BitVec 32) : a.setWidth 64 ≠ PHYS_INVALID := by
  apply ne_invalid_of_lt
  rw [BitVec.toNat_setWidth]
  have := a.isLt
  omega

theorem pae_valid (a : BitVec 64) : a &&& 0x000000ffffffffff ≠ PHYS_INVALID := by
  apply ne_invalid_of_lt
  rw [BitVec.toNat_and]
  have h : (0x000000ffffffffff : BitVec 64).toNat = 2 ^ 40 - 1 := by decide
  rw [h, Nat.and_two_pow_sub_one_eq_mod]
  exact Nat.mod_lt _ (by omega)

/-- The PSE-36 bits reach bit 35. -/
theorem page4M_valid (temp addr features : BitVec 32) :
    (if features &&& CPU_FEATURE_PSE36 ≠ 0 then
        (temp &&& ~~~0x3fffff#32).setWidth 64 ||| ((temp &&& 0x1e000).setWidth 64 <<< 19)
      else (temp &&& ~~~0x3fffff#32).setWidth 64) + (addr &&& 0x3fffff).setWidth 64 ≠
        PHYS_INVALID := by
  apply ne_invalid_of_lt
  have hsmall : ∀ a : BitVec 32, (a.setWidth 64).toNat < 2 ^ 32 := by
    intro a
    rw [BitVec.toNat_setWidth]
    have := a.isLt
    omega
  have hbits : ((temp &&& 0x1e000).setWidth 64).toNat ≤ 0x1e000 := by
    rw [BitVec.toNat_setWidth, BitVec.toNat_and]
    have h1 := @Nat.and_le_right temp.toNat (0x1e000 : BitVec 32).toNat
    have h2 : (0x1e000 : BitVec 32).toNat = 0x1e000 := by decide
    omega
  have hpse : (((temp &&& 0x1e000).setWidth 64 : BitVec 64) <<< 19).toNat < 2 ^ 36 := by
    rw [BitVec.toNat_shiftLeft, Nat.shiftLeft_eq]
    have := Nat.mod_le (((temp &&& 0x1e000).setWidth 64 : BitVec 64).toNat * 2 ^ 19) (2 ^ 64)
    omega
  have hpage : (if features &&& CPU_FEATURE_PSE36 ≠ 0 then
        (temp &&& ~~~0x3fffff#32).setWidth 64 ||| ((temp &&& 0x1e000).setWidth 64 <<< 19)
      else (temp &&& ~~~0x3fffff#32).setWidth 64 : BitVec 64).toNat < 2 ^ 36 := by
    have h1 := hsmall (temp &&& ~~~0x3fffff#32)
    split
    · rw [BitVec.toNat_or]
      exact Nat.or_lt_two_pow (by omega) hpse
    · omega
  have hoffset := hsmall (addr &&& 0x3fffff)
  rw [BitVec.toNat_add]
  have := Nat.mod_le ((if features &&& CPU_FEATURE_PSE36 ≠ 0 then
        (temp &&& ~~~0x3fffff#32).setWidth 64 ||| ((temp &&& 0x1e000).setWidth 64 <<< 19)
      else (temp &&& ~~~0x3fffff#32).setWidth 64 : BitVec 64).toNat +
        ((addr &&& 0x3fffff).setWidth 64 : BitVec 64).toNat) (2 ^ 64)
  omega

/-! ## The walks -/

section

variable {absent user rw ring0 readonly ring3 cpu486 wp : Prop}

/-- The two write tests differ when WP alone denies, and the CPU is too old for it. -/
theorem write_tests (huser : user → ring3) :
    ((user ∨ (rw ∧ ring0 ∧ readonly ∧ (ring3 ∨ wp))) ↔
      (user ∨ (rw ∧ ring0 ∧ readonly ∧ ((ring3 ∧ ring0) ∨ (cpu486 ∧ wp))))) ↔
      ¬(rw ∧ ring0 ∧ ¬ring3 ∧ ¬cpu486 ∧ wp ∧ readonly) := by
  by_cases h3 : ring3
  · simp only [h3, not_true, true_and, true_or, false_and, and_false, not_false_iff, iff_true]
    tauto
  · have hu : ¬user := fun h => h3 (huser h)
    simp only [h3, hu, not_false_iff, true_and, false_and, false_or]
    tauto

theorem present_tests (huser : user → ring3) :
    ((absent ∨ user ∨ (rw ∧ ring0 ∧ readonly ∧ (ring3 ∨ wp))) ↔
      (absent ∨ user ∨ (rw ∧ ring0 ∧ readonly ∧ ((ring3 ∧ ring0) ∨ (cpu486 ∧ wp))))) ↔
      ¬(rw ∧ ring0 ∧ ¬ring3 ∧ ¬cpu486 ∧ wp ∧ ¬absent ∧ readonly) := by
  by_cases ha : absent
  · simp [ha]
  · simp only [ha, false_or, not_false_iff, true_and]
    exact write_tests huser

end

section

variable {addr : BitVec 32} {rw : Bool} {s : MmuState}

theorem pae_agree (habrt : s.abrt = 0) :
    Agree s (mmutranslate_noabrt_pae addr rw s) (mmutranslatereal_pae addr rw s) := by
  unfold mmutranslate_noabrt_pae mmutranslatereal_pae
  have hab : ¬s.abrt ≠ 0 := fun h => h habrt
  rw [if_neg hab, if_neg hab]
  dsimp only
  generalize rammap64 _ s &&& 0x000000ffffffffff = temp2
  by_cases h2 : temp2 &&& 1 = 0
  · rw [if_pos h2, if_pos h2]
    exact agree_failure (pageFault_abrt _ _ _ _)
  rw [if_neg h2, if_neg h2]
  generalize hm : rammap64 ((temp2 &&& _) + _) s &&& 0x000000ffffffffff = temp4
  by_cases h4 : temp4 &&& 1 = 0
  · rw [if_pos h4, if_pos h4]
    exact agree_failure (pageFault_abrt _ _ _ _)
  rw [if_neg h4, if_neg h4]
  by_cases hbig : temp4 &&& 0x80 ≠ 0
  · rw [if_pos hbig, if_pos hbig, agree_tests (pageFault_abrt _ _ _ _) (pae_valid _)]
    tauto
  · rw [if_neg hbig, if_neg hbig, agree_tests (pageFault_abrt _ _ _ _) (pae_valid _)]
    tauto

/-- Without PAE the walkers differ only where WP should not matter. -/
theorem normal_agree (habrt : s.abrt = 0) (hpae : s.cr4 &&& CR4_PAE = 0) :
    Agree s (mmutranslate_noabrt_normal addr rw s) (mmutranslatereal_normal addr rw s) ↔
      ¬WritesPastWp addr rw s := by
  unfold mmutranslate_noabrt_normal mmutranslatereal_normal WritesPastWp
  have hab : ¬s.abrt ≠ 0 := fun h => h habrt
  rw [if_neg hab, if_neg hab]
  dsimp only
  generalize rammap _ s = temp2
  by_cases h2 : temp2 &&& 1 = 0
  · rw [if_pos h2, if_pos h2]
    exact ⟨fun _ h => h.2.2.2.2.2.2.1 h2, fun _ => agree_failure (pageFault_abrt _ _ _ _)⟩
  rw [if_neg h2, if_neg h2]
  by_cases hbig : temp2 &&& 0x80 ≠ 0 ∧ s.cr4 &&& CR4_PSE ≠ 0
  · have hfeatures : ∀ x bits, (rammapOr x bits s).cpu_features = s.cpu_features :=
      fun _ _ => rfl
    rw [if_pos hbig, if_pos hbig, if_pos hbig]
    simp only [hfeatures]
    rw [agree_tests (pageFault_abrt _ _ _ _) (page4M_valid temp2 addr s.cpu_features)]
    simp only [hpae, h2, ne_eq, not_false_iff, true_and]
    exact write_tests fun h => h.1
  · rw [if_neg hbig, if_neg hbig, if_neg hbig,
      agree_tests (pageFault_abrt _ _ _ _) (page4K_valid _)]
    simp only [hpae, h2, ne_eq, not_false_iff, true_and]
    exact present_tests fun h => h.1

/-- The walkers agree unless a write goes past WP on a CPU that has none. -/
theorem the_walkers_agree_unless_wp_is_on_a_386 (habrt : s.abrt = 0) :
    Agree s (mmutranslate_noabrt addr rw s) (mmutranslatereal addr rw s) ↔
      ¬WritesPastWp addr rw s := by
  unfold mmutranslate_noabrt mmutranslatereal
  have hab : ¬s.abrt ≠ 0 := fun h => h habrt
  rw [if_neg hab, if_neg hab]
  by_cases hpae : s.cr4 &&& CR4_PAE = 0
  · have hn : ¬s.cr4 &&& CR4_PAE ≠ 0 := fun h => h hpae
    rw [if_neg hn, if_neg hn]
    exact normal_agree habrt hpae
  · rw [if_pos hpae, if_pos hpae]
    exact ⟨fun _ h => hpae h.1, fun _ => pae_agree habrt⟩

end

/-- Ring 0 with paging and WP on, and a page at 0x3000 that is read-only for linear
address 0. -/
def readOnlyPage (is486 : Bool) : MmuState where
  cr0 := 0x80010001
  cr2 := 0
  cr3 := 0x1000
  cr4 := 0
  seg_cs_access := 0
  cpl_override := false
  is486 := is486
  isibm486 := false
  cpu_features := 0
  abrt := 0
  abrt_error := 0
  _mem_exec page := some (page * 1024)
  mem_unbacked_pt_page := 0
  host i := if i = 1024 then 0x2001 else if i = 2048 then 0x3001 else 0

/-- The 486 has WP, so both walkers refuse the write. -/
theorem on_a_486_both_refuse :
    Agree (readOnlyPage true) (mmutranslate_noabrt 0 true (readOnlyPage true))
      (mmutranslatereal 0 true (readOnlyPage true)) := by
  apply (the_walkers_agree_unless_wp_is_on_a_386 rfl).mpr
  intro h
  exact h.2.2.2.2.1 (Or.inl rfl)

theorem on_a_386_one_refuses : (readOnlyPage false).abrt = 0 ∧
    ¬Agree (readOnlyPage false) (mmutranslate_noabrt 0 true (readOnlyPage false))
      (mmutranslatereal 0 true (readOnlyPage false)) := by
  have hn : (mmutranslate_noabrt 0 true (readOnlyPage false)).2 = PHYS_INVALID := by decide
  have hr : (mmutranslatereal 0 true (readOnlyPage false)).2 = 0x3000 := by decide
  refine ⟨rfl, fun h => ?_⟩
  have hfail := h.failure.mp hn
  rw [hr] at hfail
  exact absurd hfail (by decide)

end blumach.mmu
