-- The rings of the lookup tables name every entry in use, so a full flush leaves none. A flush
-- of one page for writes finds the entry of the address that it is called with; the entry of
-- another address with the same memory behind it stays.
import BluMach.BitFields
import BluMach.MemLookup
import BluMach.Sweep
import Mathlib.Tactic.SplitIfs

namespace blumach.mem_lookup

open bit_fields

section

variable {ram : BitVec 64} {addr virt phys : BitVec 32} {s : Lookups} {is_compare half : Bool}
  {page p : Page} {c : Fin 256}

/-! ## Entries in use -/

def ReadLive (s : Lookups) (half : Bool) (p : Page) : Prop := s.readlookup2 half p ≠ LOOKUP_INV

def WriteLive (s : Lookups) (p : Page) : Prop :=
  s.writelookup2 p ≠ LOOKUP_INV ∨ s.page_lookup p ≠ none

/-- A slot of the ring names every entry in use. -/
structure Named (s : Lookups) : Prop where
  read : ∀ half p, ReadLive s half p → ∃ c, s.readlookup half c = some p
  write : ∀ p, WriteLive s p → ∃ c, s.writelookup c = some p

theorem readlookup2_setRead (value : BitVec 64) :
    (s.setRead is_compare page value).readlookup2 half p =
      if half = is_compare ∧ p = page then value else s.readlookup2 half p := by
  unfold Lookups.setRead
  by_cases hh : half = is_compare
  · subst hh
    by_cases hp : p = page
    · subst hp
      simp
    · simp [hp]
  · simp [hh]

theorem readlookup_setReadSlot (d : Fin 256) (value : Option Page) :
    (s.setReadSlot is_compare c value).readlookup half d =
      if half = is_compare ∧ d = c then value else s.readlookup half d := by
  unfold Lookups.setReadSlot
  by_cases hh : half = is_compare
  · subst hh
    by_cases hd : d = c
    · subst hd
      simp
    · simp [hd]
  · simp [hh]

theorem writeLive_dropWrite : WriteLive (s.dropWrite page) p ↔ p ≠ page ∧ WriteLive s p := by
  unfold WriteLive Lookups.dropWrite
  by_cases hp : p = page
  · subst hp
    simp
  · simp [hp]

/-- When the entries of the page in a slot are dropped, the other slots name what is left. -/
theorem dropWrite_named (h : Named s) (hc : s.writelookup c = some page)
    (hp : WriteLive (s.dropWrite page) p) : ∃ d, d ≠ c ∧ s.writelookup d = some p := by
  obtain ⟨hne, hlive⟩ := writeLive_dropWrite.mp hp
  obtain ⟨d, hd⟩ := h.write p hlive
  refine ⟨d, ?_, hd⟩
  rintro rfl
  exact hne (Option.some.inj (hd.symm.trans hc))

theorem dropSlot_named (h : Named s) (hc : s.writelookup c = some page) :
    Named ((s.dropWrite page).setWriteSlot c none) := by
  refine ⟨h.read, fun p hp => ?_⟩
  obtain ⟨d, hne, hd⟩ := dropWrite_named h hc hp
  exact ⟨d, (Function.update_of_ne hne ..).trans hd⟩

/-! ## Flushes -/

theorem flushWriteSlot_named (h : Named s) (c : Fin 256) : Named (flushWriteSlot s c) := by
  unfold flushWriteSlot
  split
  next page hc => exact dropSlot_named h hc
  next => exact h

theorem flushPageSlot_named (h : Named s) (c : Fin 256) :
    Named (flushPageSlot ram addr virt s c) := by
  unfold flushPageSlot
  split
  next page hc =>
    split_ifs
    · exact dropSlot_named h hc
    · exact h
  next => exact h

theorem flushReadSlot_named (h : Named s) (is_compare : Bool) (c : Fin 256) :
    Named (flushReadSlot is_compare s c) := by
  unfold flushReadSlot
  split
  next page hc =>
    refine ⟨fun half p hp => ?_, h.write⟩
    -- Both halves lose the page, so what is left in use is named by other slots.
    have hlive : p ≠ page ∧ ReadLive s half p := by
      unfold ReadLive at hp ⊢
      have heq : (((s.setRead false page LOOKUP_INV).setRead true page LOOKUP_INV).setReadSlot
          is_compare c none).readlookup2 half p = if p = page then LOOKUP_INV
            else s.readlookup2 half p := by
        show ((s.setRead false page LOOKUP_INV).setRead true page LOOKUP_INV).readlookup2 half p = _
        rw [readlookup2_setRead, readlookup2_setRead]
        cases half <;> by_cases hpp : p = page <;> simp [hpp]
      rw [heq] at hp
      split_ifs at hp with hpp
      · exact absurd rfl hp
      · exact ⟨hpp, hp⟩
    obtain ⟨d, hd⟩ := h.read half p hlive.2
    refine ⟨d, ?_⟩
    rw [readlookup_setReadSlot, if_neg]
    · exact hd
    · rintro ⟨rfl, rfl⟩
      exact hlive.1 (Option.some.inj (hd.symm.trans hc))
  next => exact h

theorem flushWriteSlot_done (s : Lookups) (c : Fin 256) :
    (flushWriteSlot s c).writelookup c = none := by
  unfold flushWriteSlot
  split
  next => exact Function.update_self ..
  next hc => exact hc

theorem flushWriteSlot_keeps (c d : Fin 256) (hd : s.writelookup d = none) :
    (flushWriteSlot s c).writelookup d = none := by
  unfold flushWriteSlot
  split
  next =>
    by_cases hdc : d = c
    · subst hdc
      exact Function.update_self ..
    · exact (Function.update_of_ne hdc ..).trans hd
  next => exact hd

theorem flushReadSlot_done (is_compare : Bool) (s : Lookups) (c : Fin 256) :
    (flushReadSlot is_compare s c).readlookup is_compare c = none := by
  unfold flushReadSlot
  split
  next =>
    rw [readlookup_setReadSlot]
    exact if_pos ⟨rfl, rfl⟩
  next hc => exact hc

theorem flushReadSlot_keeps (c d : Fin 256) (hd : s.readlookup half d = none) :
    (flushReadSlot is_compare s c).readlookup half d = none := by
  unfold flushReadSlot
  split
  next =>
    rw [readlookup_setReadSlot]
    split_ifs
    · rfl
    · exact hd
  next => exact hd

theorem flushReadSlot_write (is_compare : Bool) (s : Lookups) (c : Fin 256) :
    (flushReadSlot is_compare s c).writelookup = s.writelookup := by
  unfold flushReadSlot
  split <;> rfl

theorem flushWriteSlot_read (s : Lookups) (c : Fin 256) :
    (flushWriteSlot s c).readlookup = s.readlookup := by
  unfold flushWriteSlot
  split <;> rfl

theorem mem_slots (c : Fin 256) : c ∈ slots := by
  unfold slots
  exact List.mem_finRange c

theorem nopc_named (h : Named s) : Named (flushmmucache_nopc s) := by
  unfold flushmmucache_nopc
  refine sweep.keeps _ Named (fun s c hs => flushReadSlot_named hs true c) ?_ slots
  refine sweep.keeps _ Named (fun s c hs => ?_) h slots
  exact flushWriteSlot_named (flushReadSlot_named hs false c) c

theorem write_named (h : Named s) : Named (flushmmucache_write s) :=
  sweep.keeps _ Named (fun _ c hs => flushWriteSlot_named hs c) h slots

/-- One turn of the lower half of a full flush. -/
def flushBothSlots (s : Lookups) (c : Fin 256) : Lookups :=
  flushWriteSlot (flushReadSlot false s c) c

/-- A full flush empties all slots. -/
theorem nopc_slots (s : Lookups) :
    (∀ half c, (flushmmucache_nopc s).readlookup half c = none) ∧
      ∀ c, (flushmmucache_nopc s).writelookup c = none := by
  have hread := sweep.all_done flushBothSlots (fun c s => s.readlookup false c = none)
    (fun s c => by
      unfold flushBothSlots
      rw [flushWriteSlot_read]
      exact flushReadSlot_done false s c)
    (fun s c d hd => by
      unfold flushBothSlots
      rw [flushWriteSlot_read]
      exact flushReadSlot_keeps c d hd) s slots
  have hwrite := sweep.all_done flushBothSlots (fun c s => s.writelookup c = none)
    (fun s c => flushWriteSlot_done _ c)
    (fun s c d hd => flushWriteSlot_keeps c d
      ((congrFun (flushReadSlot_write false s c) d).trans hd))
    s slots
  have heq : flushmmucache_nopc s =
      slots.foldl (flushReadSlot true) (slots.foldl flushBothSlots s) := by
    unfold flushmmucache_nopc flushBothSlots
    rfl
  rw [heq]
  generalize slots.foldl flushBothSlots s = lower at hread hwrite ⊢
  refine ⟨fun half c => ?_, fun c => ?_⟩
  · cases half with
    | false =>
      exact sweep.keeps (flushReadSlot true) (fun s : Lookups => s.readlookup false c = none)
        (fun s d hs => flushReadSlot_keeps d c hs) (hread c (mem_slots c)) slots
    | true =>
      exact sweep.all_done (flushReadSlot true) (fun c s => s.readlookup true c = none)
        (flushReadSlot_done true) (fun s c d hd => flushReadSlot_keeps c d hd) _ slots c
        (mem_slots c)
  · exact sweep.keeps (flushReadSlot true) (fun s : Lookups => s.writelookup c = none)
      (fun s d hs => (congrFun (flushReadSlot_write true s d) c).trans hs)
      (hwrite c (mem_slots c)) slots

/-! ## New entries -/

/-- The table of reads when the page in the next slot has been dropped. -/
def readRoom (is_compare : Bool) (s : Lookups) : Lookups :=
  match s.readlookup is_compare (s.readlnext is_compare) with
  | some old => s.setRead is_compare old LOOKUP_INV
  | none => s

theorem readRoom_named (h : Named s) (hp : ReadLive (readRoom is_compare s) half p) :
    ∃ d, ¬(half = is_compare ∧ d = s.readlnext is_compare) ∧ s.readlookup half d = some p := by
  unfold readRoom at hp
  split at hp
  next old hold =>
    unfold ReadLive at hp
    rw [readlookup2_setRead] at hp
    split_ifs at hp with hdropped
    · exact absurd rfl hp
    · obtain ⟨d, hd⟩ := h.read half p hp
      refine ⟨d, ?_, hd⟩
      rintro ⟨rfl, rfl⟩
      exact hdropped ⟨rfl, Option.some.inj (hd.symm.trans hold)⟩
  next hnone =>
    obtain ⟨d, hd⟩ := h.read half p hp
    refine ⟨d, ?_, hd⟩
    rintro ⟨rfl, rfl⟩
    rw [hnone] at hd
    cases hd

theorem readRoom_rest (is_compare : Bool) (s : Lookups) :
    (readRoom is_compare s).readlookup = s.readlookup ∧
      (readRoom is_compare s).writelookup = s.writelookup ∧
      (readRoom is_compare s).writelookup2 = s.writelookup2 ∧
      (readRoom is_compare s).page_lookup = s.page_lookup := by
  unfold readRoom
  split <;> exact ⟨rfl, rfl, rfl, rfl⟩

theorem addreadlookup_named (h : Named s) : Named (addreadlookup ram is_compare virt phys s) := by
  unfold addreadlookup
  split_ifs
  · exact h
  · exact h
  obtain ⟨hslots, hwslots, hw, hpages⟩ := readRoom_rest is_compare s
  refine ⟨fun half p hp => ?_, fun p hp => ?_⟩
  · show ∃ c, (((readRoom is_compare s).setRead is_compare (pageOf virt) _).setReadSlot is_compare
      (s.readlnext is_compare) (some (pageOf virt))).readlookup half c = some p
    have hentry : ReadLive ((readRoom is_compare s).setRead is_compare (pageOf virt)
        (window ram phys virt)) half p := hp
    unfold ReadLive at hentry
    rw [readlookup2_setRead] at hentry
    split_ifs at hentry with hnew
    · refine ⟨s.readlnext is_compare, ?_⟩
      rw [readlookup_setReadSlot, if_pos ⟨hnew.1, rfl⟩, hnew.2]
    · obtain ⟨d, hd, hnamed⟩ := readRoom_named h hentry
      refine ⟨d, ?_⟩
      rw [readlookup_setReadSlot, if_neg hd]
      exact (congrFun (congrFun hslots half) d).trans hnamed
  · have hlive : WriteLive (readRoom is_compare s) p := hp
    unfold WriteLive at hlive
    rw [hw, hpages] at hlive
    obtain ⟨c, hc⟩ := h.write p hlive
    exact ⟨c, (congrFun hwslots c).trans hc⟩

/-- The tables of writes when the page in the next slot has been dropped. -/
def writeRoom (s : Lookups) : Lookups :=
  match s.writelookup s.writelnext with
  | some old => s.dropWrite old
  | none => s

theorem writeRoom_named (h : Named s) (hp : WriteLive (writeRoom s) p) :
    ∃ d, d ≠ s.writelnext ∧ s.writelookup d = some p := by
  unfold writeRoom at hp
  split at hp
  next old hold => exact dropWrite_named h hold hp
  next hnone =>
    obtain ⟨d, hd⟩ := h.write p hp
    refine ⟨d, ?_, hd⟩
    rintro rfl
    rw [hnone] at hd
    cases hd

theorem writeRoom_rest (s : Lookups) :
    (writeRoom s).writelookup = s.writelookup ∧ (writeRoom s).readlookup = s.readlookup ∧
      (writeRoom s).readlookup2 = s.readlookup2 := by
  unfold writeRoom
  split <;> exact ⟨rfl, rfl, rfl⟩

/-- The new entry for a page, direct or tracked. -/
def newWrite (ram : BitVec 64) (virt phys : BitVec 32) (code : Bool) (s : Lookups) : Lookups :=
  if code then
    { s with page_lookup := Function.update s.page_lookup (pageOf virt) (some (pageOf phys)) }
  else
    { s with writelookup2 :=
        Function.update s.writelookup2 (pageOf virt) (window ram phys virt) }

theorem newWrite_live {code : Bool} (hp : WriteLive (newWrite ram virt phys code s) p) :
    p = pageOf virt ∨ WriteLive s p := by
  by_cases hpage : p = pageOf virt
  · exact Or.inl hpage
  · refine Or.inr ?_
    unfold newWrite WriteLive at hp
    split_ifs at hp
    · dsimp only at hp
      rwa [Function.update_of_ne hpage] at hp
    · dsimp only at hp
      rwa [Function.update_of_ne hpage] at hp

theorem newWrite_rest (code : Bool) (s : Lookups) :
    (newWrite ram virt phys code s).writelookup = s.writelookup ∧
      (newWrite ram virt phys code s).readlookup = s.readlookup ∧
      (newWrite ram virt phys code s).readlookup2 = s.readlookup2 := by
  unfold newWrite
  split_ifs <;> exact ⟨rfl, rfl, rfl⟩

theorem addwritelookup_eq (hvirt : virt ≠ 0xffffffff)
    (hnew : (s.page_lookup (pageOf virt)).isSome = false) :
    addwritelookup ram virt phys s =
      { (newWrite ram virt phys (tracked phys (writeRoom s)) (writeRoom s)).setWriteSlot
          s.writelnext (some (pageOf virt)) with writelnext := s.writelnext + 1 } := by
  unfold addwritelookup
  rw [if_neg hvirt, hnew, if_neg Bool.false_ne_true]
  rfl

theorem addwritelookup_named (h : Named s) : Named (addwritelookup ram virt phys s) := by
  by_cases hvirt : virt = 0xffffffff
  · unfold addwritelookup
    rw [if_pos hvirt]
    exact h
  cases hnew : (s.page_lookup (pageOf virt)).isSome with
  | true =>
    unfold addwritelookup
    rw [if_neg hvirt, hnew, if_pos rfl]
    exact h
  | false =>
    rw [addwritelookup_eq hvirt hnew]
    obtain ⟨hslots, hrslots, hr⟩ := writeRoom_rest s
    obtain ⟨hslots', hrslots', hr'⟩ :=
      @newWrite_rest ram virt phys (tracked phys (writeRoom s)) (writeRoom s)
    refine ⟨fun half p hp => ?_, fun p hp => ?_⟩
    · have hlive : ReadLive s half p := by
        unfold ReadLive at hp ⊢
        rw [← hr, ← hr']
        exact hp
      obtain ⟨c, hc⟩ := h.read half p hlive
      refine ⟨c, Eq.trans ?_ hc⟩
      rw [← hrslots, ← hrslots']
      rfl
    · show ∃ c, Function.update (newWrite ram virt phys _ (writeRoom s)).writelookup s.writelnext
        (some (pageOf virt)) c = some p
      rcases newWrite_live (s := writeRoom s) hp with rfl | hlive
      · exact ⟨s.writelnext, Function.update_self ..⟩
      · obtain ⟨d, hne, hd⟩ := writeRoom_named h hlive
        refine ⟨d, ?_⟩
        rw [Function.update_of_ne hne, hslots', hslots]
        exact hd

theorem readRoom_entries (s : Lookups) :
    (readRoom is_compare s).readlookup2 half p ≠ LOOKUP_INV →
      (readRoom is_compare s).readlookup2 half p = s.readlookup2 half p := by
  unfold readRoom
  split
  next old hold =>
    rw [readlookup2_setRead]
    split_ifs with hdropped
    · exact fun hlive => absurd rfl hlive
    · exact fun _ => rfl
  next => exact fun _ => rfl

/-- A new lookup for reads changes the entries of its own page and of the one that was in its slot
of the ring. -/
theorem addreadlookup_entries (is_compare : Bool) (s : Lookups) (p : Page) :
    (addreadlookup ram is_compare virt phys s).readlookup2 is_compare p ≠ LOOKUP_INV →
    (addreadlookup ram is_compare virt phys s).readlookup2 is_compare p =
      s.readlookup2 is_compare p ∨
    (p = pageOf virt ∧ (addreadlookup ram is_compare virt phys s).readlookup2 is_compare p =
      window ram phys virt) := by
  unfold addreadlookup
  split_ifs
  · exact fun _ => Or.inl rfl
  · exact fun _ => Or.inl rfl
  show ((readRoom is_compare s).setRead is_compare (pageOf virt) _).readlookup2 is_compare p ≠ _ →
    ((readRoom is_compare s).setRead is_compare (pageOf virt) _).readlookup2 is_compare p = _ ∨
    (_ ∧ ((readRoom is_compare s).setRead is_compare (pageOf virt) _).readlookup2 is_compare p = _)
  rw [readlookup2_setRead]
  split_ifs with hpage
  · exact fun _ => Or.inr ⟨hpage.2, rfl⟩
  · exact fun hlive => Or.inl (readRoom_entries s hlive)

/-- The entries after a new lookup for writes are those of before, or new ones for its page. -/
structure Inserted (ram : BitVec 64) (virt phys : BitVec 32) (s s' : Lookups) : Prop where
  page : ∀ p q, s'.page_lookup p = some q →
    s.page_lookup p = some q ∨ (p = pageOf virt ∧ q = pageOf phys)
  window : ∀ p, s'.writelookup2 p ≠ LOOKUP_INV →
    s'.writelookup2 p = s.writelookup2 p ∨
      (p = pageOf virt ∧ s'.writelookup2 p = mem_lookup.window ram phys virt)

theorem writeRoom_entries (s : Lookups) (p : Page) :
    (∀ q, (writeRoom s).page_lookup p = some q → s.page_lookup p = some q) ∧
    ((writeRoom s).writelookup2 p ≠ LOOKUP_INV →
      (writeRoom s).writelookup2 p = s.writelookup2 p) := by
  unfold writeRoom
  split
  next old hold =>
    unfold Lookups.dropWrite
    dsimp only
    by_cases hp : p = old
    · subst hp
      rw [Function.update_self, Function.update_self]
      exact ⟨fun _ h => absurd h (by simp), fun h => absurd rfl h⟩
    · rw [Function.update_of_ne hp, Function.update_of_ne hp]
      exact ⟨fun _ h => h, fun _ => rfl⟩
  next => exact ⟨fun _ h => h, fun _ => rfl⟩

theorem newWrite_entries (ram : BitVec 64) (virt phys : BitVec 32) (code : Bool) (s : Lookups)
    (p : Page) :
    (∀ q, (newWrite ram virt phys code s).page_lookup p = some q →
      s.page_lookup p = some q ∨ (p = pageOf virt ∧ q = pageOf phys)) ∧
    ((newWrite ram virt phys code s).writelookup2 p = s.writelookup2 p ∨
      (p = pageOf virt ∧
        (newWrite ram virt phys code s).writelookup2 p = window ram phys virt)) := by
  unfold newWrite
  by_cases hp : p = pageOf virt
  · subst hp
    split_ifs
    · dsimp only
      rw [Function.update_self]
      exact ⟨fun q h => Or.inr ⟨rfl, (Option.some.inj h).symm⟩, Or.inl rfl⟩
    · dsimp only
      rw [Function.update_self]
      exact ⟨fun q h => Or.inl h, Or.inr ⟨rfl, rfl⟩⟩
  · split_ifs
    · dsimp only
      rw [Function.update_of_ne hp]
      exact ⟨fun _ h => Or.inl h, Or.inl rfl⟩
    · dsimp only
      rw [Function.update_of_ne hp]
      exact ⟨fun _ h => Or.inl h, Or.inl rfl⟩

theorem addwritelookup_inserted (ram : BitVec 64) (virt phys : BitVec 32) (s : Lookups) :
    Inserted ram virt phys s (addwritelookup ram virt phys s) := by
  have hsame : Inserted ram virt phys s s :=
    ⟨fun _ _ h => Or.inl h, fun _ _ => Or.inl rfl⟩
  by_cases hvirt : virt = 0xffffffff
  · unfold addwritelookup
    rw [if_pos hvirt]
    exact hsame
  cases hnew : (s.page_lookup (pageOf virt)).isSome with
  | true =>
    unfold addwritelookup
    rw [if_neg hvirt, hnew, if_pos rfl]
    exact hsame
  | false =>
    rw [addwritelookup_eq hvirt hnew]
    have hentries := newWrite_entries ram virt phys (tracked phys (writeRoom s)) (writeRoom s)
    have hroom := writeRoom_entries s
    generalize newWrite ram virt phys (tracked phys (writeRoom s)) (writeRoom s) = t at *
    refine ⟨fun p q h => ?_, fun p h => ?_⟩
    · exact ((hentries p).1 q h).imp_left ((hroom p).1 q)
    · rcases (hentries p).2 with he | he
      · have hlive : (writeRoom s).writelookup2 p ≠ LOOKUP_INV := fun hi => h (he.trans hi)
        exact Or.inl (he.trans ((hroom p).2 hlive))
      · exact Or.inr he

/-! ## The flush of one page -/

/-- The address that the page starts at. -/
def base (p : Page) : BitVec 64 := p.setWidth 64 <<< 12

/-- Writes to `p` go straight to the memory of the physical page of `addr`. -/
def Translates (ram : BitVec 64) (addr : BitVec 32) (s : Lookups) (p : Page) : Prop :=
  s.writelookup2 p ≠ LOOKUP_INV ∧ s.writelookup2 p + base p = ram + frame addr

/-- All other pages that translate to the page of `addr` have their writes tracked as well. -/
def Unaliased (ram : BitVec 64) (addr virt : BitVec 32) (s : Lookups) : Prop :=
  ∀ p, p ≠ pageOf virt → Translates ram addr s p → s.page_lookup p = some (pageOf addr)

theorem frame_toNat (addr : BitVec 32) : (frame addr).toNat = (pageOf addr).toNat * 4096 := by
  have hlt := addr.isLt
  have hmask : IsMask 12 20 (~~~0xfff#32) := by decide
  unfold frame pageOf
  rw [BitVec.toNat_setWidth, toNat_and_mask hmask, BitVec.extractLsb'_toNat,
    Nat.shiftRight_eq_div_pow]
  omega

theorem base_toNat (p : Page) : (base p).toNat = p.toNat * 4096 := by
  unfold base
  simp only [BitVec.toNat_setWidth, BitVec.toNat_shiftLeft, Nat.shiftLeft_eq]
  have hlt := p.isLt
  omega

theorem base_eq_frame : base p = frame virt ↔ p = pageOf virt := by
  rw [← BitVec.toNat_inj, base_toNat, frame_toNat, ← BitVec.toNat_inj]
  omega

/-- The value that is looked for is that of the page of `virt`. -/
theorem window_eq_iff (h : Translates ram addr s p) :
    s.writelookup2 p = window ram addr virt ↔ p = pageOf virt := by
  rw [← base_eq_frame]
  have hsum := h.2
  unfold window
  constructor
  · intro heq
    rw [heq] at hsum
    bv_omega
  · intro heq
    rw [heq] at hsum
    bv_omega

/-- An entry is dropped if it is looked for, and else stays. -/
theorem flushPage_entries (s : Lookups) (p : Page) :
    ((mem_flush_write_page ram addr virt s).writelookup2 p = LOOKUP_INV ∧
      (mem_flush_write_page ram addr virt s).page_lookup p = none ∧ Matches ram addr virt s p) ∨
    ((mem_flush_write_page ram addr virt s).writelookup2 p = s.writelookup2 p ∧
      (mem_flush_write_page ram addr virt s).page_lookup p = s.page_lookup p) := by
  refine sweep.keeps (flushPageSlot ram addr virt)
    (fun t : Lookups => (t.writelookup2 p = LOOKUP_INV ∧ t.page_lookup p = none ∧
      Matches ram addr virt s p) ∨
      (t.writelookup2 p = s.writelookup2 p ∧ t.page_lookup p = s.page_lookup p))
    (fun t c ht => ?_) (Or.inr ⟨rfl, rfl⟩) slots
  unfold flushPageSlot
  split
  next page hc =>
    split_ifs with hm
    · by_cases hp : p = page
      · subst hp
        have hms : Matches ram addr virt s p := by
          rcases ht with ⟨-, -, hms⟩ | ⟨hw, hl⟩
          · exact hms
          · unfold Matches at hm ⊢
            rwa [hw, hl] at hm
        exact Or.inl ⟨Function.update_self .., Function.update_self .., hms⟩
      · have hw : ((t.dropWrite page).setWriteSlot c none).writelookup2 p = t.writelookup2 p :=
          Function.update_of_ne hp ..
        have hl : ((t.dropWrite page).setWriteSlot c none).page_lookup p = t.page_lookup p :=
          Function.update_of_ne hp ..
        rwa [hw, hl]
    · exact ht
  next => exact ht

/-- No slot that is left names a page that is looked for. -/
theorem flushPage_slots (s : Lookups) (c : Fin 256) (p : Page)
    (hp : (mem_flush_write_page ram addr virt s).writelookup c = some p) :
    ¬Matches ram addr virt (mem_flush_write_page ram addr virt s) p := by
  revert p
  refine sweep.all_done (flushPageSlot ram addr virt)
    (fun c t => ∀ p, t.writelookup c = some p → ¬Matches ram addr virt t p)
    (fun t c p hp => ?_) (fun t c d hd p hp => ?_) s slots c (mem_slots c)
  · unfold flushPageSlot at hp ⊢
    split at hp
    next page hc =>
      split_ifs at hp ⊢ with hm
      · have hnone : ((t.dropWrite page).setWriteSlot c none).writelookup c = none :=
          Function.update_self ..
        rw [hnone] at hp
        cases hp
      · obtain rfl := Option.some.inj (hc.symm.trans hp)
        exact hm
    next hc =>
      rw [hc] at hp
      cases hp
  · unfold flushPageSlot at hp ⊢
    split at hp
    next page hc =>
      split_ifs at hp ⊢ with hm
      · by_cases hdc : d = c
        · subst hdc
          have hnone : ((t.dropWrite page).setWriteSlot d none).writelookup d = none :=
            Function.update_self ..
          rw [hnone] at hp
          cases hp
        · have hold : t.writelookup d = some p := (Function.update_of_ne hdc ..).symm.trans hp
          have hne : p ≠ page := by
            rintro rfl
            exact hd p hold hm
          have hnot := hd p hold
          unfold Matches at hnot ⊢
          unfold Lookups.dropWrite Lookups.setWriteSlot
          dsimp only
          rwa [Function.update_of_ne hne, Function.update_of_ne hne]
      · exact hd p hp
    next => exact hd p hp

theorem flushPage_named (h : Named s) : Named (mem_flush_write_page ram addr virt s) :=
  sweep.keeps _ Named (fun _ c hs => flushPageSlot_named hs c) h slots

/-- No direct entry for the physical page is left, unless an alias of it is not tracked. -/
theorem flushPage_iff (h : Named s) :
    (∀ p, ¬Translates ram addr (mem_flush_write_page ram addr virt s) p) ↔
      Unaliased ram addr virt s := by
  have hsame : ∀ p, Translates ram addr (mem_flush_write_page ram addr virt s) p →
      Translates ram addr s p ∧ ¬Matches ram addr virt s p := by
    intro p hp
    obtain ⟨c, hc⟩ := (flushPage_named h).write p (Or.inl hp.1)
    have hnot := flushPage_slots s c p hc
    rcases flushPage_entries s p with ⟨hinv, -⟩ | ⟨hw, hl⟩
    · exact absurd hinv hp.1
    · unfold Translates Matches at *
      rw [hw] at hp hnot
      rw [hl] at hnot
      exact ⟨hp, hnot⟩
  constructor
  · intro hno p hne hp
    by_contra hl
    have hnot : ¬Matches ram addr virt s p := by
      rintro (hw | htracked)
      · exact hne ((window_eq_iff hp).mp hw)
      · exact hl htracked
    rcases flushPage_entries s p with ⟨-, -, hm⟩ | ⟨hw, -⟩
    · exact hnot hm
    · refine hno p ?_
      unfold Translates at hp ⊢
      rwa [hw]
  · intro hall p hp
    obtain ⟨hps, hnot⟩ := hsame p hp
    by_cases hpage : p = pageOf virt
    · exact hnot (Or.inl ((window_eq_iff hps).mpr hpage))
    · exact hnot (Or.inr (hall p hpage hps))

/-! ## Runs -/

theorem step_named (h : Named s) (op : Op) : Named (step ram s op) := by
  cases op with
  | addreadlookup is_compare virt phys => exact addreadlookup_named h
  | addwritelookup virt phys => exact addwritelookup_named h
  | mem_flush_write_page addr virt => exact flushPage_named h
  | flushmmucache => exact nopc_named h
  | flushmmucache_write => exact write_named h
  | flushmmucache_nopc => exact nopc_named h
  | code pages recomp_page => exact ⟨h.read, h.write⟩

theorem reset_named (s : Lookups) : Named (resetreadlookup s) := by
  refine ⟨fun half p hp => absurd rfl hp, fun p hp => ?_⟩
  rcases hp with hp | hp
  · exact absurd rfl hp
  · exact absurd rfl hp

theorem full_flush (h : Named s) :
    (∀ half p, ¬ReadLive (flushmmucache s) half p) ∧ ∀ p, ¬WriteLive (flushmmucache s) p := by
  obtain ⟨hread, hwrite⟩ := nopc_slots s
  have hnamed := nopc_named h
  refine ⟨fun half p hp => ?_, fun p hp => ?_⟩
  · obtain ⟨c, hc⟩ := hnamed.read half p hp
    rw [hread half c] at hc
    cases hc
  · obtain ⟨c, hc⟩ := hnamed.write p hp
    rw [hwrite c] at hc
    cases hc

/-- After any history every entry in use is named, a full flush leaves none, and the flush of a
page leaves no direct entry for it unless an alias of it is not tracked. -/
theorem a_flushed_page_has_no_window_unless_aliased (ram : BitVec 64) (s : Lookups)
    (ops : List Op) (addr virt : BitVec 32) :
    Named (ops.foldl (step ram) (resetreadlookup s)) ∧
    (∀ half p, ¬ReadLive (flushmmucache (ops.foldl (step ram) (resetreadlookup s))) half p) ∧
    (∀ p, ¬WriteLive (flushmmucache (ops.foldl (step ram) (resetreadlookup s))) p) ∧
    ((∀ p, ¬Translates ram addr
        (mem_flush_write_page ram addr virt (ops.foldl (step ram) (resetreadlookup s))) p) ↔
      Unaliased ram addr virt (ops.foldl (step ram) (resetreadlookup s))) := by
  have hnamed := sweep.keeps (step ram) Named (fun s op hs => step_named hs op) (reset_named s) ops
  obtain ⟨hread, hwrite⟩ := full_flush hnamed
  exact ⟨hnamed, hread, hwrite, flushPage_iff hnamed⟩

end

/-- No page has code. -/
def plainPages : Lookups where
  readlookup2 _ _ := LOOKUP_INV
  writelookup2 _ := LOOKUP_INV
  page_lookup _ := none
  readlookup _ _ := none
  readlnext _ := 0
  writelookup _ := none
  writelnext := 0
  pages _ := ⟨0, 0⟩
  recomp_page := 0xffffffff

/-- Two virtual pages, 1 and 2, have physical page 5 behind them. Its flush with an address in the
one leaves the window of the other. -/
theorem the_alias_keeps_its_window :
    Translates 0x100000 0x5000
      ([.addwritelookup 0x1000 0x5000, .addwritelookup 0x2000 0x5000,
        .mem_flush_write_page 0x5000 0x1000].foldl (step 0x100000)
          (resetreadlookup plainPages)) 2 :=
  by
  unfold Translates
  decide +kernel

end blumach.mem_lookup
