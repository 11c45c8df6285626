-- What new lookups for writes do to the entries of another page: they are gone when one of the
-- slots that the ring gives next has its number, and else they stay.
import BluMach.MemLookupLaws

namespace blumach.mem_lookup

/-! ## Slots -/

/-- Slot `i` behind the next one. -/
def slotAt (t : Lookups) (i : Nat) : Option Page := t.writelookup (t.writelnext + Fin.ofNat 256 i)

/-- The entries for writes of a page are gone. -/
def Gone (t : Lookups) (page : Page) : Prop :=
  t.page_lookup page = none ∧ t.writelookup2 page = LOOKUP_INV

/-- The entries for writes of a page are as before. -/
def Same (t t' : Lookups) (page : Page) : Prop :=
  t'.page_lookup page = t.page_lookup page ∧ t'.writelookup2 page = t.writelookup2 page

/-- The number is in one of the next `c` slots. -/
def InSlots (t : Lookups) (page : Page) (c : Nat) : Prop := ∃ i < c, slotAt t i = some page

instance (t : Lookups) (page : Page) (c : Nat) : Decidable (InSlots t page c) :=
  inferInstanceAs (Decidable (∃ i < c, slotAt t i = some page))

/-- `c` slots of the ring were taken, and not for the page. -/
structure RingAfter (t t' : Lookups) (page : Page) (c : Nat) : Prop where
  slots : ∀ i, c + i < 256 → slotAt t' i = slotAt t (c + i)
  gone : InSlots t page c → Gone t' page
  same : ¬InSlots t page c → Same t t' page

/-- One lookup was made for the page of `virt`. -/
structure Added (ram : BitVec 64) (virt phys : BitVec 32) (t t' : Lookups) : Prop where
  code : tracked phys t = true → t'.page_lookup (pageOf virt) = some (pageOf phys)
  plain : tracked phys t = false → t'.page_lookup (pageOf virt) = none ∧
    t'.writelookup2 (pageOf virt) = window ram phys virt
  tracks : ∀ phys, tracked phys t' = tracked phys t
  ring : ∀ page, page ≠ pageOf virt → RingAfter t t' page 1

section

variable {t t' t'' : Lookups} {page : Page} {c d : Nat} {ram : BitVec 64} {virt phys : BitVec 32}

theorem RingAfter.refl (t : Lookups) (page : Page) : RingAfter t t page 0 := by
  refine ⟨fun i _ => by rw [Nat.zero_add], fun h => ?_, fun _ => ⟨rfl, rfl⟩⟩
  obtain ⟨i, hi, -⟩ := h
  omega

theorem InSlots.split (h : RingAfter t t' page c) (hcd : c + d ≤ 256) :
    InSlots t page (c + d) ↔ InSlots t page c ∨ InSlots t' page d := by
  constructor
  · rintro ⟨i, hi, hslot⟩
    by_cases hlt : i < c
    · exact Or.inl ⟨i, hlt, hslot⟩
    · have hsum : c + (i - c) = i := by omega
      refine Or.inr ⟨i - c, by omega, ?_⟩
      rw [h.slots _ (by omega), hsum]
      exact hslot
  · rintro (⟨i, hi, hslot⟩ | ⟨i, hi, hslot⟩)
    · exact ⟨i, by omega, hslot⟩
    · rw [h.slots i (by omega)] at hslot
      exact ⟨c + i, by omega, hslot⟩

theorem RingAfter.trans (h : RingAfter t t' page c) (h' : RingAfter t' t'' page d)
    (hcd : c + d ≤ 256) : RingAfter t t'' page (c + d) := by
  refine ⟨fun i hi => ?_, fun hin => ?_, fun hin => ?_⟩
  · rw [h'.slots i (by omega), h.slots (d + i) (by omega), Nat.add_assoc]
  · by_cases hd : InSlots t' page d
    · exact h'.gone hd
    · obtain ⟨hpage, hwindow⟩ := h'.same hd
      obtain ⟨hnone, hinv⟩ := h.gone (((InSlots.split h hcd).mp hin).resolve_right hd)
      exact ⟨hpage.trans hnone, hwindow.trans hinv⟩
  · obtain ⟨hc, hd⟩ := not_or.mp fun hor => hin ((InSlots.split h hcd).mpr hor)
    obtain ⟨hpage, hwindow⟩ := h.same hc
    obtain ⟨hpage', hwindow'⟩ := h'.same hd
    exact ⟨hpage'.trans hpage, hwindow'.trans hwindow⟩

theorem ofNat_succ (i : Nat) : (1 : Fin 256) + Fin.ofNat 256 i = Fin.ofNat 256 (1 + i) := by
  apply Fin.ext
  simp [Fin.add_def]

theorem ofNat_ne_zero {i : Nat} (hi : 1 + i < 256) (w : Fin 256) :
    w + Fin.ofNat 256 (1 + i) ≠ w := by
  intro h
  have hval := congrArg Fin.val h
  have hw := w.isLt
  rw [Fin.val_add, Fin.val_ofNat] at hval
  omega

theorem inSlots_one : InSlots t page 1 ↔ t.writelookup t.writelnext = some page := by
  have hzero : slotAt t 0 = t.writelookup t.writelnext := by
    unfold slotAt
    exact congrArg t.writelookup (add_zero _)
  constructor
  · rintro ⟨i, hi, hslot⟩
    obtain rfl : i = 0 := by omega
    exact hzero.symm.trans hslot
  · exact fun h => ⟨0, by omega, hzero.trans h⟩

theorem writeRoom_gone (h : t.writelookup t.writelnext = some page) : Gone (writeRoom t) page := by
  unfold writeRoom
  rw [h]
  exact ⟨Function.update_self .., Function.update_self ..⟩

theorem writeRoom_same (h : t.writelookup t.writelnext ≠ some page) :
    Same t (writeRoom t) page := by
  unfold writeRoom
  split
  next old hold =>
    have hne : page ≠ old := fun he => h (he ▸ hold)
    exact ⟨Function.update_of_ne hne .., Function.update_of_ne hne ..⟩
  next => exact ⟨rfl, rfl⟩

theorem writeRoom_none (h : t.page_lookup page = none) : (writeRoom t).page_lookup page = none := by
  by_cases hslot : t.writelookup t.writelnext = some page
  · exact (writeRoom_gone hslot).1
  · exact (writeRoom_same hslot).1.trans h

theorem writeRoom_tracked : tracked phys (writeRoom t) = tracked phys t := by
  unfold writeRoom
  split
  · rfl
  · rfl

theorem addwritelookup_added (hvirt : virt ≠ 0xffffffff)
    (hnone : t.page_lookup (pageOf virt) = none) :
    Added ram virt phys t (addwritelookup ram virt phys t) := by
  have hroom := writeRoom_none hnone
  obtain ⟨hslots, -, -⟩ := writeRoom_rest t
  rw [addwritelookup_eq hvirt (by rw [hnone]; rfl), writeRoom_tracked]
  have hring : ∀ page, page ≠ pageOf virt → ∀ t' : Lookups,
      t'.writelnext = t.writelnext + 1 →
      t'.writelookup = Function.update t.writelookup t.writelnext (some (pageOf virt)) →
      Same (writeRoom t) t' page → RingAfter t t' page 1 := by
    intro page hne t' hnext hring hsame
    refine ⟨fun i hi => ?_, fun hin => ?_, fun hin => ?_⟩
    · unfold slotAt
      rw [hnext, hring, add_assoc, ofNat_succ, Function.update_of_ne (ofNat_ne_zero hi _)]
    · obtain ⟨hpage, hwindow⟩ := writeRoom_gone (inSlots_one.mp hin)
      exact ⟨hsame.1.trans hpage, hsame.2.trans hwindow⟩
    · obtain ⟨hpage, hwindow⟩ := writeRoom_same fun hs => hin (inSlots_one.mpr hs)
      exact ⟨hsame.1.trans hpage, hsame.2.trans hwindow⟩
  cases hcode : tracked phys t with
  | true =>
    refine ⟨fun _ => Function.update_self .., fun h => absurd (hcode.symm.trans h) (by decide),
      fun phys => ?_, fun page hne => hring page hne _ rfl ?_ ⟨Function.update_of_ne hne .., rfl⟩⟩
    · exact writeRoom_tracked
    · exact congrArg (Function.update · t.writelnext (some (pageOf virt))) hslots
  | false =>
    refine ⟨fun h => absurd (hcode.symm.trans h) (by decide),
      fun _ => ⟨hroom, Function.update_self ..⟩, fun phys => ?_,
      fun page hne => hring page hne _ rfl ?_ ⟨rfl, Function.update_of_ne hne ..⟩⟩
    · exact writeRoom_tracked
    · exact congrArg (Function.update · t.writelnext (some (pageOf virt))) hslots

end

end blumach.mem_lookup
