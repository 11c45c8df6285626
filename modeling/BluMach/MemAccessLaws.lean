-- What the loops of translations before a split access come to: the address that each byte's own
-- page gives, or a return with nothing changed but accessed and dirty bits.
import BluMach.MemAccess
import BluMach.MmuPages

namespace blumach.mem_access

open bit_fields mem_lookup mmu

/-! ## Addresses -/

/-- Where the walk of an address leads in a state. -/
def physical (rw : Bool) (s : Machine) (x : BitVec 32) : BitVec 64 :=
  (mmutranslatereal x rw s.mmu).2

/-- The walk fails, or its address does not have 32 bits. -/
def High (rw : Bool) (s : Machine) (x : BitVec 32) : Prop := 0xffffffff < physical rw s x

instance (rw : Bool) (s : Machine) (x : BitVec 32) : Decidable (High rw s x) :=
  inferInstanceAs (Decidable (_ < _))

section

variable {x y : BitVec 32}

theorem pageOf_toNat (x : BitVec 32) : (pageOf x).toNat = x.toNat / 2 ^ 12 := by
  have hx := x.isLt
  unfold pageOf
  rw [BitVec.extractLsb'_toNat, Nat.shiftRight_eq_div_pow]
  omega

theorem pageOf_eq_iff : pageOf x = pageOf y ↔ x.toNat / 2 ^ 12 = y.toNat / 2 ^ 12 := by
  rw [← BitVec.toNat_inj, pageOf_toNat, pageOf_toNat]

theorem offset_toNat (x : BitVec 32) : (x &&& 0xfff).toNat = x.toNat % 2 ^ 12 := by
  have h := toNat_and_mask (by decide : IsMask 0 12 (0xfff : BitVec 32)) x
  omega

theorem withOffset_toNat (a : BitVec 64) (x : BitVec 32) :
    (withOffset a x).toNat = 2 ^ 12 * (a.toNat / 2 ^ 12) + x.toNat % 2 ^ 12 := by
  have ha := a.isLt
  have hframe := toNat_and_mask (by decide : IsMask 12 52 (~~~0xfff#64)) a
  have hfull : a.toNat / 2 ^ 12 % 2 ^ 52 = a.toNat / 2 ^ 12 := by omega
  have hoffset : ((x &&& 0xfff).setWidth 64 : BitVec 64).toNat = x.toNat % 2 ^ 12 := by
    rw [BitVec.toNat_setWidth, offset_toNat]
    omega
  unfold withOffset
  rw [BitVec.toNat_or, hframe, hfull, hoffset]
  exact (Nat.two_pow_add_eq_or_of_lt (Nat.mod_lt _ (by decide)) _).symm

end

/-! ## States of the loops -/

/-- The walks so far went well. -/
def Along (s₀ s : Machine) : Prop :=
  ∃ h', s = { s₀ with mmu := { s₀.mmu with host := h' } } ∧
    SameButUsed (s₀.mmu.cr4 &&& CR4_PAE ≠ 0) s₀.mmu.host h'

/-- Only the walks changed something. -/
structure Stalled (s₀ s : Machine) : Prop where
  rest : s = { s₀ with mmu := s.mmu }
  walked : Walked s₀.mmu s.mmu

section

variable {s₀ s : Machine} {rw : Bool} {x y : BitVec 32}

theorem Along.refl (s : Machine) : Along s s := ⟨s.mmu.host, rfl, SameButUsed.refl _ _⟩

theorem Along.stalled (h : Along s₀ s) : Stalled s₀ s := by
  obtain ⟨h', rfl, hused⟩ := h
  exact ⟨rfl, rfl, hused⟩

theorem Along.physical (h : Along s₀ s) (hw : WholePages s₀.mmu) :
    physical rw s x = physical rw s₀ x := by
  obtain ⟨h', rfl, hused⟩ := h
  exact real_used hw hused

theorem Along.skips (h : Along s₀ s) : Skips rw s x ↔ Skips rw s₀ x := by
  obtain ⟨h', rfl, -⟩ := h
  exact Iff.rfl

theorem skips_page (h : x.toNat / 2 ^ 12 = y.toNat / 2 ^ 12) : Skips rw s x ↔ Skips rw s y := by
  unfold Skips tracked
  rw [pageOf_eq_iff.mpr h]

theorem mmutranslate_eq (rw : Bool) (x : BitVec 32) (s : Machine) : mmutranslate rw x s =
    ({ s with mmu := (mmutranslatereal x rw s.mmu).1 }, physical rw s x) := by
  unfold mmutranslate physical
  generalize mmutranslatereal x rw s.mmu = r
  rfl

/-- A walk that gives an address was not stopped. -/
theorem running_of_valid (h : physical rw s x ≠ PHYS_INVALID) : s.mmu.abrt = 0 := by
  by_contra habrt
  apply h
  unfold physical
  rw [real_stopped x rw habrt]

/-- A walk of a loop. -/
theorem translate_along (rw : Bool) (x : BitVec 32) (h : Along s₀ s) (hw : WholePages s₀.mmu) :
    (mmutranslate rw x s).2 = physical rw s₀ x ∧
    (physical rw s₀ x = PHYS_INVALID →
      (mmutranslate rw x s).1.mmu.abrt ≠ 0 ∧ Stalled s₀ (mmutranslate rw x s).1) ∧
    (physical rw s₀ x ≠ PHYS_INVALID → Along s₀ (mmutranslate rw x s).1) := by
  have hphysical : physical rw s x = physical rw s₀ x := h.physical hw
  have hstalled := h.stalled
  rw [mmutranslate_eq, hphysical]
  obtain ⟨h', hs, hused⟩ := h
  have hmmu : s.mmu = { s₀.mmu with host := h' } := by rw [hs]
  by_cases habrt : s.mmu.abrt = 0
  · unfold physical at hphysical
    have hw' : WholePages s.mmu := by rw [hmmu]; exact ⟨hw.backed, hw.unbacked⟩
    have hcr4 : s.mmu.cr4 = s₀.mmu.cr4 := by rw [hmmu]
    have hhost : s.mmu.host = h' := by rw [hmmu]
    rcases real_cases x rw habrt hw' with ⟨p, -, hfail, ha, hrest, hmore⟩ |
      ⟨address, upper, leaf, h'', -, hlt, hreal, hmore⟩
    · rw [hcr4, hhost] at hmore
      refine ⟨rfl, fun _ => ⟨ha, ?_, ?_, hused.trans hmore⟩, fun hok => ?_⟩
      · rw [hs]
      · refine hrest.trans ?_
        rw [hmmu]
      · exact absurd (hphysical.symm.trans hfail) hok
    · rw [hcr4, hhost] at hmore
      refine ⟨rfl, fun hfail => ?_, fun _ => ⟨h'', ?_, hused.trans hmore⟩⟩
      · rw [hreal] at hphysical
        exact absurd (hphysical.trans hfail)
          (ne_invalid_of_lt (by rw [BitVec.toNat_ofNat]; omega))
      · rw [hreal, hs]
  · rw [real_stopped x rw habrt]
    refine ⟨rfl, fun _ => ⟨habrt, hstalled⟩, fun hok => ?_⟩
    rw [← hphysical] at hok
    exact absurd (running_of_valid hok) habrt

/-- The bytes of a page have one page of physical memory. -/
theorem physical_same_page (h : x.toNat / 2 ^ 12 = y.toNat / 2 ^ 12)
    (hok : physical rw s₀ x ≠ PHYS_INVALID) :
    physical rw s₀ y = withOffset (physical rw s₀ x) y ∧ physical rw s₀ y ≠ PHYS_INVALID := by
  rcases real_same_page rw h with ⟨hfail, -⟩ | ⟨base, hbase, hlt, hx, hy⟩
  · exact absurd hfail hok
  · unfold physical
    rw [hx, hy]
    have hsame : BitVec.ofNat 64 (base + y.toNat % 2 ^ 12) =
        withOffset (BitVec.ofNat 64 (base + x.toNat % 2 ^ 12)) y := by
      apply BitVec.eq_of_toNat_eq
      rw [withOffset_toNat, BitVec.toNat_ofNat, BitVec.toNat_ofNat]
      omega
    exact ⟨hsame, ne_invalid_of_lt (by rw [BitVec.toNat_ofNat]; omega)⟩

end

/-! ## The loops -/

/-- A loop returned: a byte that it translates has no address of 32 bits, and there is an abort if
the walk of that byte failed. -/
structure Blocked (rw : Bool) (s₀ : Machine) (addr : BitVec 32) (n : Nat)
    (r : Machine × Option (Nat → BitVec 32)) : Prop where
  none : r.2 = none
  stalled : Stalled s₀ r.1
  byte : ∃ j < n, ¬Skips rw s₀ (linear addr j) ∧ High rw s₀ (linear addr j) ∧
    (physical rw s₀ (linear addr j) = PHYS_INVALID → r.1.mmu.abrt ≠ 0)

/-- A loop came to its end from byte `i` on. -/
structure Translated (rw : Bool) (s₀ : Machine) (addr : BitVec 32) (n i : Nat)
    (a64 b : Nat → BitVec 32) (s : Machine) : Prop where
  along : Along s₀ s
  before : ∀ j < i, b j = a64 j
  here : ∀ j, i ≤ j → j < n → ¬Skips rw s₀ (linear addr j) →
    ¬High rw s₀ (linear addr j) ∧ b j = (physical rw s₀ (linear addr j)).setWidth 32

/-- What a byte of the loop must give. -/
structure GivesAddress (rw : Bool) (s₀ : Machine) (x : BitVec 32) (r : Machine × BitVec 64) :
    Prop where
  address : r.2 = physical rw s₀ x
  fail : physical rw s₀ x = PHYS_INVALID → r.1.mmu.abrt ≠ 0 ∧ Stalled s₀ r.1
  ok : physical rw s₀ x ≠ PHYS_INVALID → Along s₀ r.1

section

variable {s₀ s : Machine} {rw checked : Bool} {addr : BitVec 32} {n : Nat}

theorem linear_toNat (addr : BitVec 32) (i : Nat) :
    (linear addr i).toNat = (addr.toNat + i) % 2 ^ 32 := by
  unfold linear
  rw [BitVec.toNat_add, BitVec.toNat_ofNat]
  omega

theorem offset_eq_zero {x : BitVec 32} : x &&& 0xfff = 0 ↔ x.toNat % 2 ^ 12 = 0 := by
  rw [← BitVec.toNat_inj, offset_toNat]
  exact Iff.rfl

theorem not_high_valid {x : BitVec 32} (h : ¬High rw s x) : physical rw s x ≠ PHYS_INVALID := by
  intro hfail
  unfold High at h
  rw [hfail] at h
  exact h (by decide)

/-- A return or a step, by the comparison with the address of the byte. -/
theorem step_cases {i : Nat} {r : Machine × BitVec 64} {c : Prop} [Decidable c]
    {next : Machine × Option (Nat → BitVec 32)} (hi : i < n)
    (hskip : ¬Skips rw s₀ (linear addr i)) (hgive : GivesAddress rw s₀ (linear addr i) r)
    (hc : c ↔ checked = true ∧ r.2 > 0xffffffff)
    (hlow : checked = false → ¬High rw s₀ (linear addr i)) :
    Blocked rw s₀ addr n (if c then (r.1, none) else next) ∨
    (¬High rw s₀ (linear addr i) ∧ Along s₀ r.1 ∧ (if c then (r.1, none) else next) = next) := by
  have hhigh : r.2 > 0xffffffff ↔ High rw s₀ (linear addr i) := by
    rw [hgive.address]
    exact Iff.rfl
  rw [hhigh] at hc
  by_cases hstop : c
  · rw [if_pos hstop]
    refine Or.inl ⟨rfl, ?_, i, hi, hskip, (hc.mp hstop).2, fun hfail => (hgive.fail hfail).1⟩
    by_cases hfail : physical rw s₀ (linear addr i) = PHYS_INVALID
    · exact (hgive.fail hfail).2
    · exact (hgive.ok hfail).stalled
  · rw [if_neg hstop]
    have hno : ¬High rw s₀ (linear addr i) := by
      cases hchecked : checked with
      | true => exact fun h => hstop (hc.mpr ⟨hchecked, h⟩)
      | false => exact hlow hchecked
    exact Or.inr ⟨hno, hgive.ok (not_high_valid hno), rfl⟩

/-- One byte that the loop passes over, in front of the rest. -/
theorem Translated.skip {i : Nat} {a64 b : Nat → BitVec 32}
    (h : Translated rw s₀ addr n (i + 1) a64 b s) (hskip : Skips rw s₀ (linear addr i)) :
    Translated rw s₀ addr n i a64 b s := by
  refine ⟨h.along, fun j hj => h.before j (by omega), fun j hj hn hno => ?_⟩
  by_cases hji : j = i
  · subst hji
    exact absurd hskip hno
  · exact h.here j (by omega) hn hno

/-- One byte that the loop translates, in front of the rest. -/
theorem Translated.step {i : Nat} {a64 b : Nat → BitVec 32} {v : BitVec 32}
    (h : Translated rw s₀ addr n (i + 1) (Function.update a64 i v) b s)
    (hlow : ¬High rw s₀ (linear addr i))
    (hv : v = (physical rw s₀ (linear addr i)).setWidth 32) :
    Translated rw s₀ addr n i a64 b s := by
  refine ⟨h.along, fun j hj => ?_, fun j hj hn hno => ?_⟩
  · rw [h.before j (by omega), Function.update_of_ne (by omega)]
  · by_cases hji : j = i
    · subst hji
      rw [h.before j (by omega), Function.update_self]
      exact ⟨hlow, hv⟩
    · exact h.here j (by omega) hn hno

/-- The loop of the words. -/
theorem translateEach_spec (hw : WholePages s₀.mmu) (m i : Nat)
    (a64 : Nat → BitVec 32) (h : Along s₀ s) (hn : m + i = n) :
    Blocked rw s₀ addr n (translateEach rw addr m i a64 s) ∨
    ∃ b, (translateEach rw addr m i a64 s).2 = some b ∧
      Translated rw s₀ addr n i a64 b (translateEach rw addr m i a64 s).1 := by
  induction m generalizing i a64 s with
  | zero =>
    refine Or.inr ⟨a64, rfl, h, fun _ _ => rfl, fun j hj hlt => ?_⟩
    omega
  | succ m ih =>
    unfold translateEach
    dsimp only
    have hhere : addr + BitVec.ofNat 32 i = linear addr i := rfl
    rw [hhere]
    by_cases hskip : Skips rw s (linear addr i)
    · rw [if_pos hskip]
      rcases ih (i + 1) a64 h (by omega) with hblocked | ⟨b, hb, hdone⟩
      · exact Or.inl hblocked
      · exact Or.inr ⟨b, hb, hdone.skip (h.skips.mp hskip)⟩
    · rw [if_neg hskip]
      obtain ⟨haddress, hfail, hok⟩ := translate_along rw (linear addr i) h hw
      have hno : ¬Skips rw s₀ (linear addr i) := fun h' => hskip (h.skips.mpr h')
      have hc : (mmutranslate rw (linear addr i) s).2 > 0xffffffff ↔
          true = true ∧ (mmutranslate rw (linear addr i) s).2 > 0xffffffff := by
        rw [and_iff_right rfl]
      rcases step_cases (n := n) (by omega) hno ⟨haddress, hfail, hok⟩ hc (fun h' => by cases h')
        with hblocked | ⟨hlow, halong, hnext⟩
      · exact Or.inl hblocked
      · rw [hnext]
        rcases ih (i + 1) (Function.update a64 i
          ((mmutranslate rw (linear addr i) s).2.setWidth 32)) halong (by omega) with
          hblocked | ⟨b, hb, hdone⟩
        · exact Or.inl hblocked
        · refine Or.inr ⟨b, hb, hdone.step hlow ?_⟩
          rw [haddress]

/-- The address that the loop holds is good for the next byte, if that is in the same page. -/
def Holds (rw : Bool) (s₀ : Machine) (addr : BitVec 32) (i : Nat) (a : BitVec 64) : Prop :=
  i ≠ 0 → (linear addr i).toNat % 2 ^ 12 ≠ 0 → ¬Skips rw s₀ (linear addr i) →
    physical rw s₀ (linear addr i) = withOffset a (linear addr i) ∧
      physical rw s₀ (linear addr i) ≠ PHYS_INVALID

/-- A byte that does not start a page is in the page of the one before it. -/
theorem same_page_succ {i : Nat} (h : (linear addr (i + 1)).toNat % 2 ^ 12 ≠ 0) :
    (linear addr i).toNat / 2 ^ 12 = (linear addr (i + 1)).toNat / 2 ^ 12 := by
  rw [linear_toNat] at h ⊢
  rw [linear_toNat]
  omega

/-- The bytes of an access from the start of a page on are in it. -/
theorem same_page_last {i : Nat} (h : (linear addr i).toNat % 2 ^ 12 = 0) (hi : i < n)
    (hn : n ≤ 2 ^ 12) :
    (linear addr (n - 1)).toNat / 2 ^ 12 = (linear addr i).toNat / 2 ^ 12 := by
  rw [linear_toNat] at h ⊢
  rw [linear_toNat]
  omega

theorem translateByte_gives (hw : WholePages s₀.mmu) {i : Nat}
    {a : BitVec 64} (h : Along s₀ s) (hi : i < n) (hn : n ≤ 2 ^ 12)
    (hskip : ¬Skips rw s₀ (linear addr i)) (ha : Holds rw s₀ addr i a) :
    GivesAddress rw s₀ (linear addr i) (translateByte rw addr n i a s) := by
  have hhere : addr + BitVec.ofNat 32 i = linear addr i := rfl
  have hlast : addr + BitVec.ofNat 32 (n - 1) = linear addr (n - 1) := rfl
  unfold translateByte
  dsimp only
  rw [hhere, hlast]
  by_cases hi0 : i = 0
  · rw [if_pos hi0]
    obtain ⟨haddress, hfail, hok⟩ := translate_along rw (linear addr i) h hw
    exact ⟨haddress, hfail, hok⟩
  rw [if_neg hi0]
  by_cases hstart : linear addr i &&& 0xfff = 0
  · -- the walk is that of the last byte
    rw [if_pos hstart]
    have hpage := same_page_last (offset_eq_zero.mp hstart) hi hn
    obtain ⟨haddress, hfail, hok⟩ :=
      translate_along rw (linear addr (n - 1)) h hw
    by_cases hbad : physical rw s₀ (linear addr (n - 1)) = PHYS_INVALID
    · have hbad' : physical rw s₀ (linear addr i) = PHYS_INVALID := by
        by_contra hgood
        exact (physical_same_page hpage.symm hgood).2 hbad
      obtain ⟨hstop, hstalled⟩ := hfail hbad
      refine ⟨?_, fun _ => ⟨hstop, hstalled⟩, fun hgood => absurd hbad' hgood⟩
      dsimp only
      rw [if_neg hstop, haddress, hbad, hbad']
    · obtain ⟨hsame, hvalid⟩ := physical_same_page hpage hbad
      have halong := hok hbad
      have hrunning : s₀.mmu.abrt = 0 := running_of_valid hbad
      have hgo : (mmutranslate rw (linear addr (n - 1)) s).1.mmu.abrt = 0 := by
        obtain ⟨h', hs, -⟩ := halong
        rw [hs]
        exact hrunning
      refine ⟨?_, fun hfail' => absurd hfail' hvalid, fun _ => halong⟩
      dsimp only
      rw [if_pos hgo, haddress, hsame]
  · rw [if_neg hstart]
    obtain ⟨hsame, hvalid⟩ := ha hi0 (fun hz => hstart (offset_eq_zero.mpr hz)) hskip
    exact ⟨hsame.symm, fun hfail => absurd hfail hvalid, fun _ => h⟩

theorem Holds.next {i : Nat} (hlow : ¬High rw s₀ (linear addr i)) :
    Holds rw s₀ addr (i + 1) (physical rw s₀ (linear addr i)) := by
  intro _ hpage _
  exact physical_same_page (same_page_succ hpage) (not_high_valid hlow)

theorem Holds.skip {i : Nat} (a : BitVec 64) (hskip : Skips rw s₀ (linear addr i)) :
    Holds rw s₀ addr (i + 1) a := by
  intro _ hpage hno
  exact absurd ((skips_page (same_page_succ hpage)).mp hskip) hno

/-- The loop of the longs and the quads. Without the comparison it must not meet a byte that would
have made it return. -/
theorem translateBytes_spec (hw : WholePages s₀.mmu) (hlen : n ≤ 2 ^ 12)
    (hlow : checked = false → ∀ j < n, ¬Skips rw s₀ (linear addr j) → ¬High rw s₀ (linear addr j))
    (m i : Nat) (a : BitVec 64) (a64 : Nat → BitVec 32) (h : Along s₀ s) (hn : m + i = n)
    (ha : Holds rw s₀ addr i a) :
    Blocked rw s₀ addr n (translateBytes rw checked addr n m i a a64 s) ∨
    ∃ b, (translateBytes rw checked addr n m i a a64 s).2 = some b ∧
      Translated rw s₀ addr n i a64 b (translateBytes rw checked addr n m i a a64 s).1 := by
  induction m generalizing i a a64 s with
  | zero =>
    refine Or.inr ⟨a64, rfl, h, fun _ _ => rfl, fun j hj hlt => ?_⟩
    omega
  | succ m ih =>
    unfold translateBytes
    dsimp only
    have hhere : addr + BitVec.ofNat 32 i = linear addr i := rfl
    rw [hhere]
    by_cases hskip : Skips rw s (linear addr i)
    · have hskip₀ := h.skips.mp hskip
      rw [if_pos hskip]
      rcases ih (i + 1) a a64 h (by omega) (Holds.skip a hskip₀) with hblocked | ⟨b, hb, hdone⟩
      · exact Or.inl hblocked
      · exact Or.inr ⟨b, hb, hdone.skip hskip₀⟩
    · rw [if_neg hskip]
      have hno : ¬Skips rw s₀ (linear addr i) := fun h' => hskip (h.skips.mpr h')
      have hgive := translateByte_gives hw h (show i < n by omega) hlen hno ha
      rcases step_cases (n := n) (by omega) hno hgive Iff.rfl
        (fun hc => hlow hc i (by omega) hno) with hblocked | ⟨hnot, halong, hnext⟩
      · exact Or.inl hblocked
      · rw [hnext]
        have hholds : Holds rw s₀ addr (i + 1) (translateByte rw addr n i a s).2 := by
          rw [hgive.address]
          exact Holds.next hnot
        rcases ih (i + 1) _ (Function.update a64 i
          ((translateByte rw addr n i a s).2.setWidth 32)) halong (by omega) hholds with
          hblocked | ⟨b, hb, hdone⟩
        · exact Or.inl hblocked
        · refine Or.inr ⟨b, hb, hdone.step hnot ?_⟩
          rw [hgive.address]

end

end blumach.mem_access
