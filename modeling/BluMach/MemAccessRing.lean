-- The slots of the ring of `addwritelookup` that the pieces in the first page of a store take. A
-- second page with its number in one of them loses its entry before its bytes are stored.
import BluMach.MemAccessWrites
import BluMach.MemLookupRing

namespace blumach.mem_access

open mem_lookup tiling

/-! ## Slots -/

/-- The calls of `addwritelookup` that take a slot, if each one does. A piece that is not aligned
makes none when the page has a window, and the last byte of all never does. A new window is usable
unless it has the value that stands for none. -/
def calls (addr : BitVec 32) (usable : Bool) : Bool → List Extent → Nat
  | _, [] => 0
  | live, p :: ps =>
    if (linear addr p.1).toNat % p.2 ≠ 0 ∧ live = true then calls addr usable live ps
    else if linear addr p.1 = 0xffffffff then calls addr usable live ps
    else 1 + calls addr usable usable ps

/-- The slots that the pieces in the first page take, in RAM and for a page without an entry in
`page_lookup`: no more than one if the page has code, since it gets such an entry. -/
def slotsTaken (s : Machine) (T : BitVec 32 → BitVec 32) (addr : BitVec 32) (ps : List Extent) :
    Nat :=
  if s.lookups.page_lookup (pageOf addr) = none ∧ s.ramWrites (pageOf (T addr)) = true ∧
      s.cpu_use_exec = true then
    let n := calls addr (window s.ram (T addr) addr != LOOKUP_INV)
      (s.lookups.writelookup2 (pageOf addr) != LOOKUP_INV) ps
    if mem_lookup.tracked (T addr) s.lookups then min n 1 else n
  else 0

section

variable {b : Machine} {T : BitVec 32 → BitVec 32} {addr : BitVec 32} {t : Lookups}
  {page : Page} {live usable : Bool} {ps : List Extent} {p : Extent}

theorem calls_le : calls addr usable live ps ≤ ps.length := by
  induction ps generalizing live with
  | nil => exact Nat.le_refl _
  | cons p ps ih =>
    have hlive := @ih live
    have husable := @ih usable
    unfold calls
    rw [List.length_cons]
    split_ifs
    · omega
    · omega
    · omega

theorem windowed_iff (hpage : pageOf (linear addr p.1) = pageOf addr)
    (hlive : t.writelookup2 (pageOf addr) ≠ LOOKUP_INV ↔ live = true) :
    Windowed t (linear addr p.1) p.2 ↔ (linear addr p.1).toNat % p.2 ≠ 0 ∧ live = true := by
  unfold Windowed
  rw [hpage, hlive]

/-- Without a new lookup the tables stay. -/
theorem pieceLookups_same (hpage : pageOf (linear addr p.1) = pageOf addr)
    (h : t.page_lookup (pageOf addr) ≠ none ∨
      ¬(b.ramWrites (pageOf (T (linear addr p.1))) = true ∧ b.cpu_use_exec = true)) :
    pieceLookups b T addr t p = t := by
  unfold pieceLookups
  dsimp only
  split_ifs with hwindow htracked hmakes
  · rfl
  · rfl
  · have hentry := h.resolve_right (not_not.mpr hmakes)
    unfold addwritelookup
    rw [hpage, if_pos (Option.isSome_iff_ne_none.mpr hentry)]
    split_ifs <;> rfl
  · rfl

theorem foldl_same (hpage : ∀ p ∈ ps, pageOf (linear addr p.1) = pageOf addr)
    (h : ∀ p ∈ ps, t.page_lookup (pageOf addr) ≠ none ∨
      ¬(b.ramWrites (pageOf (T (linear addr p.1))) = true ∧ b.cpu_use_exec = true)) :
    ps.foldl (pieceLookups b T addr) t = t := by
  induction ps with
  | nil => rfl
  | cons p ps ih =>
    rw [List.foldl_cons, pieceLookups_same (hpage p List.mem_cons_self) (h p List.mem_cons_self)]
    exact ih (fun q hq => hpage q (List.mem_cons_of_mem _ hq))
      fun q hq => h q (List.mem_cons_of_mem _ hq)

/-- What a piece that finds no window and no entry does. -/
theorem pieceLookups_made (hpage : pageOf (linear addr p.1) = pageOf addr)
    (hwindow : ¬Windowed t (linear addr p.1) p.2) (hnone : t.page_lookup (pageOf addr) = none)
    (hmakes : b.ramWrites (pageOf (T (linear addr p.1))) = true ∧ b.cpu_use_exec = true) :
    pieceLookups b T addr t p =
      addwritelookup b.ram (linear addr p.1) (T (linear addr p.1)) t := by
  unfold pieceLookups
  dsimp only
  rw [if_neg hwindow, hpage, hnone, if_pos hmakes]
  rfl

theorem addwritelookup_last {ram : BitVec 64} {virt phys : BitVec 32} (h : virt = 0xffffffff) :
    addwritelookup ram virt phys t = t := by
  unfold addwritelookup
  rw [if_pos h]

theorem tracked_code {x y : BitVec 32} (h : pageOf x = pageOf y) :
    mem_lookup.tracked x t = mem_lookup.tracked y t := by
  have hframe : x &&& ~~~0xfff#32 = y &&& ~~~0xfff#32 := by
    have h' := frame_page h
    unfold mem_lookup.frame at h'
    have hlow := congrArg (BitVec.setWidth 32) h'
    rwa [BitVec.setWidth_setWidth_of_le _ (by decide), BitVec.setWidth_setWidth_of_le _ (by decide),
      BitVec.setWidth_eq, BitVec.setWidth_eq] at hlow
  unfold mem_lookup.tracked
  rw [h, hframe]

/-- The pieces in the first page, with no entry in `page_lookup` and RAM behind it. -/
structure FirstPage (b : Machine) (T : BitVec 32 → BitVec 32) (addr : BitVec 32)
    (ps : List Extent) : Prop where
  map : OnePage T addr
  page : ∀ p ∈ ps, pageOf (linear addr p.1) = pageOf addr
  ram : b.ramWrites (pageOf (T addr)) = true
  exec : b.cpu_use_exec = true

theorem FirstPage.tail (h : FirstPage b T addr (p :: ps)) : FirstPage b T addr ps :=
  ⟨h.map, fun q hq => h.page q (List.mem_cons_of_mem _ hq), h.ram, h.exec⟩

/-- A piece goes through its window, is the last byte of all, or makes a lookup. -/
theorem FirstPage.step (h : FirstPage b T addr (p :: ps))
    (hnone : t.page_lookup (pageOf addr) = none)
    (hlive : t.writelookup2 (pageOf addr) ≠ LOOKUP_INV ↔ live = true) :
    (pieceLookups b T addr t p = t ∧
      calls addr usable live (p :: ps) = calls addr usable live ps) ∨
    ((∃ x phys, pageOf x = pageOf addr ∧ pageOf phys = pageOf (T addr) ∧
      Added b.ram x phys t (pieceLookups b T addr t p)) ∧
      calls addr usable live (p :: ps) = 1 + calls addr usable usable ps) := by
  have hpage := h.page p List.mem_cons_self
  obtain ⟨hframe, -⟩ := h.map _ hpage
  by_cases hwindow : Windowed t (linear addr p.1) p.2
  · have hcall := (windowed_iff hpage hlive).mp hwindow
    refine Or.inl ⟨if_pos hwindow, ?_⟩
    rw [calls, if_pos hcall]
  have hcall := fun hc => hwindow ((windowed_iff hpage hlive).mpr hc)
  have hmade := pieceLookups_made (T := T) hpage hwindow hnone ⟨hframe ▸ h.ram, h.exec⟩
  by_cases hlast : linear addr p.1 = 0xffffffff
  · refine Or.inl ⟨hmade.trans (addwritelookup_last hlast), ?_⟩
    rw [calls, if_neg hcall, if_pos hlast]
  · refine Or.inr ⟨⟨_, _, hpage, hframe, ?_⟩, ?_⟩
    · rw [hmade]
      exact addwritelookup_added hlast (hpage ▸ hnone)
    · rw [calls, if_neg hcall, if_neg hlast]

/-- A page without code never gets an entry in `page_lookup`, but a window. -/
theorem ring_plain (h : FirstPage b T addr ps) (hnone : t.page_lookup (pageOf addr) = none)
    (hlive : t.writelookup2 (pageOf addr) ≠ LOOKUP_INV ↔ live = true)
    (hcode : mem_lookup.tracked (T addr) t = false)
    (husable : window b.ram (T addr) addr ≠ LOOKUP_INV ↔ usable = true)
    (hne : page ≠ pageOf addr) (hlen : ps.length ≤ 256) :
    RingAfter t (ps.foldl (pieceLookups b T addr) t) page (calls addr usable live ps) := by
  induction ps generalizing t live with
  | nil => exact RingAfter.refl t page
  | cons p ps ih =>
    rw [List.length_cons] at hlen
    rw [List.foldl_cons]
    rcases @FirstPage.step _ _ _ _ live usable _ _ h hnone hlive with
      ⟨hsame, hcalls⟩ | ⟨⟨x, phys, hx, hphys, hadded⟩, hcalls⟩
    · rw [hsame, hcalls]
      exact ih h.tail hnone hlive hcode (by omega)
    · have hplain := hadded.plain ((tracked_code hphys).trans hcode)
      have hwindow : mem_lookup.window b.ram phys x = mem_lookup.window b.ram (T addr) addr := by
        unfold mem_lookup.window
        rw [frame_page hx, frame_page hphys]
      rw [hx, hwindow] at hplain
      have hrest := ih h.tail hplain.1 (hplain.2.symm ▸ husable)
        ((hadded.tracks _).trans hcode) (by omega)
      have hle := @calls_le addr usable usable ps
      rw [hcalls]
      exact (hadded.ring page (hx ▸ hne)).trans hrest (by omega)

/-- A page with code gets an entry in `page_lookup` from the first lookup. -/
theorem ring_code (h : FirstPage b T addr ps) (hnone : t.page_lookup (pageOf addr) = none)
    (hlive : t.writelookup2 (pageOf addr) ≠ LOOKUP_INV ↔ live = true)
    (hcode : mem_lookup.tracked (T addr) t = true) (hne : page ≠ pageOf addr) :
    RingAfter t (ps.foldl (pieceLookups b T addr) t) page
      (min (calls addr usable live ps) 1) := by
  induction ps generalizing t with
  | nil => exact RingAfter.refl t page
  | cons p ps ih =>
    rw [List.foldl_cons]
    rcases @FirstPage.step _ _ _ _ live usable _ _ h hnone hlive with
      ⟨hsame, hcalls⟩ | ⟨⟨x, phys, hx, hphys, hadded⟩, hcalls⟩
    · rw [hsame, hcalls]
      exact ih h.tail hnone hlive hcode
    · have hentry := hadded.code ((tracked_code hphys).trans hcode)
      rw [hx] at hentry
      have hone : min (1 + calls addr usable usable ps) 1 = 1 := by omega
      rw [hcalls, hone, foldl_same h.tail.page fun _ _ => Or.inl (by rw [hentry]; exact nofun)]
      exact hadded.ring page (hx ▸ hne)

/-- The pieces in the first page take as many slots as are counted. -/
theorem ring_spec (hmap : b.lookups.page_lookup (pageOf addr) = none → OnePage T addr)
    (hpage : ∀ p ∈ ps, pageOf (linear addr p.1) = pageOf addr) (hne : page ≠ pageOf addr)
    (hlen : ps.length ≤ 256) :
    RingAfter b.lookups (ps.foldl (pieceLookups b T addr) b.lookups) page
      (slotsTaken b T addr ps) := by
  unfold slotsTaken
  by_cases hmakes : b.lookups.page_lookup (pageOf addr) = none ∧
      b.ramWrites (pageOf (T addr)) = true ∧ b.cpu_use_exec = true
  · obtain ⟨hnone, hram, hexec⟩ := hmakes
    have hfirst : FirstPage b T addr ps := ⟨hmap hnone, hpage, hram, hexec⟩
    rw [if_pos ⟨hnone, hram, hexec⟩]
    dsimp only
    cases hcode : mem_lookup.tracked (T addr) b.lookups with
    | true => exact ring_code hfirst hnone bne_iff_ne.symm hcode hne
    | false => exact ring_plain hfirst hnone bne_iff_ne.symm hcode bne_iff_ne.symm hne hlen
  · rw [if_neg hmakes, foldl_same hpage fun p hp => ?_]
    · exact RingAfter.refl _ page
    · by_cases hnone : b.lookups.page_lookup (pageOf addr) = none
      · refine Or.inr fun hram => hmakes ⟨hnone, ?_⟩
        rw [((hmap hnone) _ (hpage p hp)).1] at hram
        exact hram
      · exact Or.inl hnone

end

end blumach.mem_access
