-- The parts of a read that is split, once its pages are translated. Each comes through a lookup or
-- a mapping of its own page.
import BluMach.MemAccessPlaces

namespace blumach.mem_access

open bit_fields mem_lookup mmu

/-- A place that a byte's own page gives it for a read: by its entry in `readlookup2`, or by the
walk. -/
def OwnRead (s : Machine) (x : BitVec 32) (place : Place) : Prop :=
  (readlookup2 s x ≠ LOOKUP_INV ∧ place = .host (readlookup2 s x + x.setWidth 64)) ∨
  place = busPlace s.ram s.ramReads (target false s x)

/-- The bytes came in their order, each from a place of its own page. -/
def Reads (s₀ : Machine) (y : BitVec 32) (n : Nat) (sources : List Source) : Prop :=
  ∃ place : Nat → Place, sources = (List.range n).map (fun j => .place (place j)) ∧
    ∀ j < n, OwnRead s₀ (linear y j) (place j)

/-- The entry that reads a page is that of the start, or a new one for the address of the walk. -/
def ReadEntries (s₀ s : Machine) : Prop :=
  ∀ x, readlookup2 s x ≠ LOOKUP_INV → readlookup2 s x = readlookup2 s₀ x ∨
    (s₀.ramReads (pageOf (target false s₀ x)) = true ∧
      readlookup2 s x + x.setWidth 64 = s₀.ram + (target false s₀ x).setWidth 64)

/-- What the parts leave alone, with no walk that has stopped them. -/
structure ReadReady (s₀ s : Machine) : Prop where
  rammask : s.rammask = s₀.rammask
  ram : s.ram = s₀.ram
  ramReads : s.ramReads = s₀.ramReads
  is_compare : s.is_compare = s₀.is_compare
  paging : paging s ↔ paging s₀
  running : ¬Stopped s
  entries : ReadEntries s₀ s

/-- A part went well. -/
structure Gets (s₀ : Machine) (y : BitVec 32) (n : Nat) (r : Machine × List Source) : Prop where
  reads : Reads s₀ y n r.2
  ready : ReadReady s₀ r.1

section

variable {s₀ s : Machine} {y : BitVec 32} {m k n : Nat} {a64 : Nat → BitVec 32}

theorem Reads.append {l l' : List Source} (h : Reads s₀ y m l) (h' : Reads s₀ (linear y m) k l') :
    Reads s₀ y (m + k) (l ++ l') := by
  obtain ⟨place, rfl, hown⟩ := h
  obtain ⟨place', rfl, hown'⟩ := h'
  have hown'' : ∀ j < k, OwnRead s₀ (linear y (m + j)) (place' j) := by
    intro j hj
    rw [← linear_linear]
    exact hown' j hj
  obtain ⟨both, hboth, hown⟩ :=
    places_append (P := fun j place => OwnRead s₀ (linear y j) place) hown hown''
  have hsources := congrArg (List.map Source.place) hboth
  rw [List.map_append, List.map_map, List.map_map, List.map_map] at hsources
  exact ⟨both, hsources.symm, hown⟩

theorem readHalves_spec {low high : Machine → Machine × List Source}
    (hlow : Gets s₀ y m (low s))
    (hhigh : ∀ s', ReadReady s₀ s' → Gets s₀ (linear y m) k (high s')) :
    Gets s₀ y (m + k) (readHalves low high s) := by
  have hnext := hhigh _ hlow.ready
  exact ⟨hlow.reads.append hnext.reads, hnext.ready⟩

theorem ReadReady.at (h : ReadReady s₀ s) (addr : BitVec 32) :
    ReadReady s₀ { s with mem_logical_addr := addr } :=
  ⟨h.rammask, h.ram, h.ramReads, h.is_compare, h.paging, h.running, h.entries⟩

/-! ## Parts in one page -/

theorem readlookup2_page {x : BitVec 32} (h : pageOf x = pageOf y) :
    readlookup2 s x = readlookup2 s y := by
  unfold readlookup2
  rw [h]

/-- The entries after a lookup was made for the page of `y`. -/
theorem ReadEntries.inserted (h : ReadReady s₀ s) (hwalk : Walkable false s₀ y)
    (hram : s₀.ramReads (pageOf (target false s₀ y)) = true) (hat : s.mem_logical_addr = y) :
    ReadEntries s₀ { s with
      lookups := addreadlookup s.ram s.is_compare s.mem_logical_addr (target false s₀ y)
        s.lookups } := by
  intro x hlive
  rcases addreadlookup_entries s.is_compare s.lookups (pageOf x) hlive with hsame | ⟨hpage, hnew⟩
  · have hentry : readlookup2 { s with
        lookups := addreadlookup s.ram s.is_compare s.mem_logical_addr (target false s₀ y)
          s.lookups } x = readlookup2 s x := hsame
    rw [hentry] at hlive ⊢
    exact h.entries x hlive
  · rw [hat] at hpage hnew
    obtain ⟨hframe, hoffset⟩ := target_same_page hwalk hpage.symm
    refine Or.inr ⟨?_, ?_⟩
    · rw [hframe]
      exact hram
    · have hentry : readlookup2 { s with
          lookups := addreadlookup s.ram s.is_compare s.mem_logical_addr (target false s₀ y)
            s.lookups } x = window s.ram (target false s₀ y) y := by
        rw [hat]
        exact hnew
      rw [hentry, h.ram]
      exact window_place s₀.ram hpage hframe hoffset

/-- A part that comes through the mapping of its address. -/
theorem readMapped_spec (h : ReadReady s₀ s) (hin : y.toNat % 2 ^ 12 + n ≤ 2 ^ 12)
    (hwalk : Walkable false s₀ y) (hat : s.mem_logical_addr = y) :
    Gets s₀ y n (readMapped (target false s₀ y) n s) := by
  obtain ⟨-, hoffset⟩ := target_same_page (y := y) hwalk rfl
  have hplaces : (busPlaces s.ram s.ramReads (target false s₀ y) n).map Source.place =
      (List.range n).map fun j =>
        .place (busPlace s₀.ram s₀.ramReads (target false s₀ (linear y j))) := by
    rw [h.ram, h.ramReads, busPlaces_eq (by omega), List.map_map]
    apply List.map_congr_left
    intro j hj
    have hj' := List.mem_range.mp hj
    rw [Function.comp_apply, target_linear hwalk (by omega)]
  have hreads : Reads s₀ y n
      ((busPlaces s.ram s.ramReads (target false s₀ y) n).map Source.place) :=
    ⟨_, hplaces, fun _ _ => Or.inr rfl⟩
  unfold readMapped
  dsimp only
  split_ifs with hmake
  · have hram : s₀.ramReads (pageOf (target false s₀ y)) = true := by
      rw [← h.ramReads]
      exact hmake.1
    have hentries := ReadEntries.inserted h hwalk hram hat
    exact ⟨hreads, h.rammask, h.ram, h.ramReads, h.is_compare, h.paging, h.running, hentries⟩
  · exact ⟨hreads, h⟩

theorem readWindow_spec (h : ReadReady s₀ s) (hin : y.toNat % 2 ^ 12 + n ≤ 2 ^ 12)
    (hlive : readlookup2 s y ≠ LOOKUP_INV) : Reads s₀ y n (readWindow y n s) := by
  refine ⟨fun j => .host (readlookup2 s y + (linear y j).setWidth 64), ?_, fun j hj => ?_⟩
  · unfold readWindow
    rw [hostPlaces_eq _ _ (fun j => readlookup2 s y + (linear y j).setWidth 64) fun j hj => ?_,
      List.map_map]
    · rfl
    · rw [setWidth_linear (by omega), BitVec.add_assoc]
  · have hpage : pageOf (linear y j) = pageOf y := (linear_page (by omega)).2
    have hentry := h.entries (linear y j)
    rw [readlookup2_page hpage] at hentry
    rcases hentry hlive with hsame | ⟨hram, hplace⟩
    · refine Or.inl ⟨?_, ?_⟩
      · rw [← hsame]
        exact hlive
      · rw [← hsame]
    · refine Or.inr ?_
      unfold busPlace
      dsimp only
      rw [if_pos hram, hplace]

theorem readWhole_spec (h : ReadReady s₀ s) (hin : y.toNat % 2 ^ 12 + n ≤ 2 ^ 12)
    (hright : Right false s₀ y 1 a64) (hat : s.mem_logical_addr = y) :
    Gets s₀ y n (readWhole y (a64 0) n s) := by
  obtain ⟨hwalk, htarget⟩ := hright.first skips_read
  have htarget' : (if paging s then a64 0 else y) &&& s.rammask = target false s₀ y := by
    rw [← htarget, h.rammask]
    simp only [h.paging]
  unfold readWhole
  rw [if_neg h.running, htarget']
  exact readMapped_spec h hin hwalk hat

/-- A part in one page, through the window of the page or as a whole. -/
theorem read_part_spec {c : Prop} [Decidable c] (h : ReadReady s₀ s)
    (hin : y.toNat % 2 ^ 12 + n ≤ 2 ^ 12) (hright : Right false s₀ y 1 a64)
    (hlive : c → readlookup2 s y ≠ LOOKUP_INV) (hat : s.mem_logical_addr = y) :
    Gets s₀ y n (if c then (s, readWindow y n s) else readWhole y (a64 0) n s) := by
  split_ifs with hc
  · exact ⟨readWindow_spec h hin (hlive hc), h⟩
  · exact readWhole_spec h hin hright hat

/-! ## Bytes, words and longs -/

theorem readmembl_no_mmut_spec (h : ReadReady s₀ s) (hright : Right false s₀ y 1 a64) :
    Gets s₀ y 1 (readmembl_no_mmut y (a64 0) s) := by
  unfold readmembl_no_mmut
  exact readWhole_spec (h.at y) (by omega) hright rfl

theorem two_bytes_gets (h : ReadReady s₀ s) (hright : Right false s₀ y 2 a64) :
    Gets s₀ y 2 (readHalves (readmembl_no_mmut y (a64 0)) (readmembl_no_mmut (y + 1) (a64 1)) s) :=
  readHalves_spec (readmembl_no_mmut_spec h (hright.mono (by omega)))
    fun s' hs' => readmembl_no_mmut_spec hs' (Right.behind (m := 1) hright)

theorem readmemwl_no_mmut_spec (h : ReadReady s₀ s) (hright : Right false s₀ y 2 a64) :
    Gets s₀ y 2 (readmemwl_no_mmut y a64 s) := by
  have hat := h.at y
  unfold readmemwl_no_mmut
  dsimp only
  by_cases hcross : y &&& 1 ≠ 0 ∧ y &&& 0xfff > 0xffe
  · rw [if_pos hcross, if_neg hat.running]
    exact two_bytes_gets hat hright
  · rw [if_neg hcross]
    rw [word_splits_iff] at hcross
    exact read_part_spec hat (by omega) (hright.mono (by omega)) (fun hwindow => hwindow.2) rfl

theorem two_words_gets (h : ReadReady s₀ s) (hright : Right false s₀ y 4 a64) :
    Gets s₀ y 4 (readHalves (readmemwl_no_mmut y a64)
      (readmemwl_no_mmut (y + 2) (behind a64 2)) s) :=
  readHalves_spec (readmemwl_no_mmut_spec h (hright.mono (by omega)))
    fun s' hs' => readmemwl_no_mmut_spec hs' (Right.behind (m := 2) hright)

theorem readmemll_no_mmut_spec (h : ReadReady s₀ s) (hright : Right false s₀ y 4 a64) :
    Gets s₀ y 4 (readmemll_no_mmut y a64 s) := by
  have hat := h.at y
  unfold readmemll_no_mmut
  dsimp only
  by_cases hcross : y &&& 3 ≠ 0 ∧ y &&& 0xfff > 0xffc
  · rw [if_pos hcross, if_neg hat.running]
    exact two_words_gets hat hright
  · rw [if_neg hcross]
    rw [long_splits_iff] at hcross
    exact read_part_spec hat (by omega) (hright.mono (by omega)) (fun hwindow => hwindow.2) rfl

theorem two_longs_gets (h : ReadReady s₀ s) (hright : Right false s₀ y 8 a64) :
    Gets s₀ y 8 (readHalves (readmemll_no_mmut y a64)
      (readmemll_no_mmut (y + 4) (behind a64 4)) s) :=
  readHalves_spec (readmemll_no_mmut_spec h (hright.mono (by omega)))
    fun s' hs' => readmemll_no_mmut_spec hs' (Right.behind (m := 4) hright)

end

end blumach.mem_access
