-- The stores of the pieces in one page, once that page is translated or has an entry of its own.
-- Each goes through a lookup or the mapping of its physical address, and the lookups that are made
-- on the way lead to the same places.
import BluMach.MemAccessPieces

namespace blumach.mem_access

open bit_fields mem_lookup tiling

/-- A place that a byte's own page gives it for a write, with `p` for its physical address: by its
entry in `page_lookup`, by its entry in `writelookup2`, or by the mapping, which is for a page
without an entry in `page_lookup`. -/
def OwnPlace (s : Machine) (x p : BitVec 32) (place : Place) : Prop :=
  (∃ page, tracked s x = some page ∧ place = .host (pageCell s page x)) ∨
  (s.lookups.writelookup2 (pageOf x) ≠ LOOKUP_INV ∧
    place = .host (s.lookups.writelookup2 (pageOf x) + x.setWidth 64)) ∨
  (tracked s x = none ∧ place = busPlace s.ram s.ramWrites p)

/-- That of the physical address that the walk of the page gives. -/
def OwnWrite (s : Machine) (x : BitVec 32) (place : Place) : Prop :=
  OwnPlace s x (target true s x) place

/-- The bytes of the page of `y` have their physical addresses, by `T`, in one page. -/
def OnePage (T : BitVec 32 → BitVec 32) (y : BitVec 32) : Prop :=
  ∀ x, pageOf x = pageOf y →
    pageOf (T x) = pageOf (T y) ∧ (T x).toNat % 2 ^ 12 = x.toNat % 2 ^ 12

/-! ## The invariant of the stores -/

/-- The page is in RAM, and had no entry in `page_lookup`. -/
def Fresh (b : Machine) (T : BitVec 32 → BitVec 32) (y : BitVec 32) : Prop :=
  tracked b y = none ∧ b.ramWrites (pageOf (T y)) = true

/-- The entries of the page of `y` are those of `b`, or new ones for the physical page. -/
structure PageKept (b : Machine) (T : BitVec 32 → BitVec 32) (y : BitVec 32) (s : Machine) :
    Prop where
  stores : Stores b s
  window : s.lookups.writelookup2 (pageOf y) ≠ LOOKUP_INV →
    s.lookups.writelookup2 (pageOf y) = b.lookups.writelookup2 (pageOf y) ∨
    (Fresh b T y ∧ s.lookups.writelookup2 (pageOf y) = mem_lookup.window b.ram (T y) y)
  page : ∀ page, tracked s y = some page →
    tracked b y = some page ∨ (Fresh b T y ∧ page = pageOf (T y))
  kept : tracked s y = none → tracked b y = none

/-- A page without an entry in `page_lookup` is translated, and no walk has stopped the stores. -/
structure Ready (b : Machine) (T : BitVec 32 → BitVec 32) (y : BitVec 32)
    (a64 : Nat → BitVec 32) (addr : BitVec 32) (p : Extent) : Prop where
  running : ¬Stopped b
  map : OnePage T y
  address : (if paging b then a64 p.1 else linear addr p.1) &&& b.rammask = T (linear addr p.1)

/-- The `m` bytes from the one of number `i` on were stored, each at a place that is right for its
number. -/
def PutsAt (P : Nat → Place → Prop) (data : List (BitVec 8)) (i m : Nat) (s s' : Machine) : Prop :=
  ∃ place : Nat → Place,
    s'.stored = s.stored ++ ((List.range m).map place).zip ((data.drop i).take m) ∧
    ∀ j < m, P (i + j) (place j)

/-- The places that the pages of the bytes of an access give them. -/
def OwnPlaces (b : Machine) (T : BitVec 32 → BitVec 32) (addr : BitVec 32) (j : Nat)
    (place : Place) : Prop :=
  OwnPlace b (linear addr j) (T (linear addr j)) place

section

variable {b s s' s'' : Machine} {P : Nat → Place → Prop} {T : BitVec 32 → BitVec 32}
  {x y addr : BitVec 32} {i m k : Nat} {data d : List (BitVec 8)} {a64 : Nat → BitVec 32}

theorem length_part (h : i + m ≤ data.length) : ((data.drop i).take m).length = m := by
  rw [List.length_take, List.length_drop]
  omega

theorem PutsAt.append (h : PutsAt P data i m s s') (h' : PutsAt P data (i + m) k s' s'')
    (hlen : i + m + k ≤ data.length) : PutsAt P data i (m + k) s s'' := by
  obtain ⟨place, hstored, hown⟩ := h
  obtain ⟨place', hstored', hown'⟩ := h'
  have hown'' : ∀ j < k, P (i + (m + j)) (place' j) := by
    intro j hj
    rw [← Nat.add_assoc]
    exact hown' j hj
  obtain ⟨both, hboth, hown⟩ := places_append (P := fun j place => P (i + j) place) hown hown''
  refine ⟨both, ?_, hown⟩
  have hdata : (data.drop i).take (m + k) =
      (data.drop i).take m ++ (data.drop (i + m)).take k := by
    rw [List.take_add, List.drop_drop]
  rw [hstored', hstored, hboth, hdata, List.zip_append, List.append_assoc]
  rw [List.length_map, List.length_range, length_part (by omega)]

theorem PutsAt.mono {Q : Nat → Place → Prop}
    (h : PutsAt P data i m s s') (hPQ : ∀ j, i ≤ j → j < i + m → ∀ place, P j place → Q j place) :
    PutsAt Q data i m s s' := by
  obtain ⟨place, hstored, hown⟩ := h
  exact ⟨place, hstored, fun j hj => hPQ (i + j) (by omega) (by omega) _ (hown j hj)⟩

/-- The stored bytes have one place each. -/
theorem PutsAt.both {Q : Nat → Place → Prop} (h : PutsAt P data i m s s')
    (h' : PutsAt Q data i m s s') (hlen : i + m ≤ data.length) :
    ∀ j < m, ∃ place, P (i + j) place ∧ Q (i + j) place := by
  obtain ⟨place, hstored, hown⟩ := h
  obtain ⟨place', hstored', hown'⟩ := h'
  have hzip := List.append_cancel_left (hstored.symm.trans hstored')
  have hplaces := congrArg (List.map Prod.fst) hzip
  rw [List.map_fst_zip, List.map_fst_zip] at hplaces
  · intro j hj
    have hsame := List.map_inj_left.mp hplaces j (List.mem_range.mpr hj)
    exact ⟨place j, hown j hj, hsame ▸ hown' j hj⟩
  · rw [List.length_map, List.length_range, length_part hlen]
  · rw [List.length_map, List.length_range, length_part hlen]

theorem PutsAt.length (h : PutsAt P data i m s s') (hlen : i + m ≤ data.length) :
    s'.stored.length = s.stored.length + m := by
  obtain ⟨place, hstored, -⟩ := h
  rw [hstored, List.length_append, List.length_zip, List.length_map, List.length_range,
    length_part hlen, Nat.min_self]

theorem tracked_eq_some {page : Page} : tracked s x = some page ↔
    s.lookups.page_lookup (pageOf x) = some page ∧ s.hasWrite page = true := by
  unfold tracked
  exact Option.filter_eq_some_iff

/-- The tables of the page of `y` alone decide. -/
theorem PageKept.of_tables (hstores : Stores b s')
    (hwindow : s'.lookups.writelookup2 (pageOf y) = s.lookups.writelookup2 (pageOf y))
    (hpage : s'.lookups.page_lookup (pageOf y) = s.lookups.page_lookup (pageOf y))
    (h : PageKept b T y s) : PageKept b T y s' := by
  have htracked : tracked s' y = tracked s y := by
    unfold tracked
    rw [hpage, hstores, h.stores]
  refine ⟨hstores, ?_, ?_, ?_⟩
  · rw [hwindow]
    exact h.window
  · rw [htracked]
    exact h.page
  · rw [htracked]
    exact h.kept

/-- A new lookup for a byte of the page. -/
theorem PageKept.inserted (hmap : OnePage T y) (hfresh : Fresh b T y) (hstores : Stores b s')
    (h : PageKept b T y s) (hpage : pageOf x = pageOf y)
    (hins : Inserted b.ram x (T x) s.lookups s'.lookups) : PageKept b T y s' := by
  have hhas : s'.hasWrite = s.hasWrite := by rw [hstores, h.stores]
  obtain ⟨hframe, -⟩ := hmap x hpage
  refine ⟨hstores, fun hlive => ?_, fun page htracked => ?_, fun _ => hfresh.1⟩
  · rcases hins.window _ hlive with hsame | ⟨-, hnew⟩
    · rw [hsame] at hlive ⊢
      exact h.window hlive
    · refine Or.inr ⟨hfresh, hnew.trans ?_⟩
      unfold mem_lookup.window
      rw [frame_page hpage, frame_page hframe]
  · obtain ⟨hentry, hwrite⟩ := tracked_eq_some.mp htracked
    rcases hins.page _ _ hentry with hold | ⟨-, rfl⟩
    · rw [hhas] at hwrite
      exact h.page page (tracked_eq_some.mpr ⟨hold, hwrite⟩)
    · exact Or.inr ⟨hfresh, hframe⟩

/-! ## Places -/

/-- The places of the bytes of a piece, one after another. -/
def Gives (b : Machine) (T : BitVec 32 → BitVec 32) (x : BitVec 32) (m : Nat)
    (places : List Place) : Prop :=
  ∃ place : Nat → Place, places = (List.range m).map place ∧
    ∀ j < m, OwnPlace b (linear x j) (T (linear x j)) (place j)

/-- A place of RAM is behind its mapping. -/
theorem fresh_place (hfresh : Fresh b T y) (hmap : OnePage T y) (hpage : pageOf x = pageOf y)
    {place : BitVec 64} (hplace : place = b.ram + (T x).setWidth 64) :
    OwnPlace b x (T x) (.host place) := by
  refine Or.inr (Or.inr ⟨(tracked_page hpage).trans hfresh.1, ?_⟩)
  unfold busPlace
  rw [(hmap x hpage).1, if_pos hfresh.2, hplace]

theorem window_gives (hmap : tracked b y = none → OnePage T y) (h : PageKept b T y s)
    (hpage : pageOf x = pageOf y) (hfit : ¬Crosses x m)
    (hlive : s.lookups.writelookup2 (pageOf x) ≠ LOOKUP_INV) :
    Gives b T x m (hostPlaces (s.lookups.writelookup2 (pageOf x) + x.setWidth 64) m) := by
  unfold Crosses at hfit
  refine ⟨fun j => .host (s.lookups.writelookup2 (pageOf x) + (linear x j).setWidth 64),
    hostPlaces_eq _ _ _ fun j hj => ?_, fun j hj => ?_⟩
  · rw [setWidth_linear (by omega), BitVec.add_assoc]
  · have hpage' : pageOf (linear x j) = pageOf y := (linear_page (by omega)).2.trans hpage
    rw [hpage] at hlive ⊢
    rcases h.window hlive with hsame | ⟨hfresh, hnew⟩
    · rw [hsame] at hlive ⊢
      exact Or.inr (Or.inl ⟨by rwa [hpage'], by rw [hpage']⟩)
    · have hone := hmap hfresh.1
      obtain ⟨hframe, hoffset⟩ := hone _ hpage'
      exact fresh_place hfresh hone hpage' (by rw [hnew, window_place b.ram hpage' hframe hoffset])

theorem cell_gives {page : Page} (hmap : tracked b y = none → OnePage T y)
    (h : PageKept b T y s) (hpage : pageOf x = pageOf y) (hfit : ¬Crosses x m)
    (htracked : tracked s x = some page) :
    Gives b T x m (hostPlaces (pageCell s page x) m) := by
  unfold Crosses at hfit
  have hcell : ∀ x, pageCell s page x = pageCell b page x := by
    intro x
    unfold pageCell
    rw [h.stores]
  refine ⟨fun j => .host (pageCell b page (linear x j)), hostPlaces_eq _ _ _ fun j hj => ?_,
    fun j hj => ?_⟩
  · rw [hcell, pageCell_linear page (by omega)]
  · have hpage' : pageOf (linear x j) = pageOf y := (linear_page (by omega)).2.trans hpage
    rcases h.page page ((tracked_page hpage.symm).trans htracked) with hold | ⟨hfresh, rfl⟩
    · exact Or.inl ⟨page, (tracked_page hpage').trans hold, rfl⟩
    · have hone := hmap hfresh.1
      obtain ⟨hframe, hoffset⟩ := hone _ hpage'
      exact fresh_place hfresh hone hpage' (pageCell_place hframe hoffset)

theorem OnePage.linear (h : OnePage T y) (hpage : pageOf x = pageOf y) {j : Nat}
    (hj : x.toNat % 2 ^ 12 + j < 2 ^ 12) : T (linear x j) = T x + BitVec.ofNat 32 j := by
  obtain ⟨hsum, hpage'⟩ := linear_page hj
  obtain ⟨hframe, hoffset⟩ := h x hpage
  obtain ⟨hframe', hoffset'⟩ := h _ (hpage'.trans hpage)
  have hsame := pageOf_eq_iff.mp (hframe'.trans hframe.symm)
  have hlt := (T x).isLt
  have hlt' := (T (mem_access.linear x j)).isLt
  apply BitVec.eq_of_toNat_eq
  rw [BitVec.toNat_add, BitVec.toNat_ofNat]
  omega

theorem bus_gives (hmap : OnePage T y) (hnone : tracked b y = none) (hpage : pageOf x = pageOf y)
    (hfit : ¬Crosses x m) : Gives b T x m (busPlaces b.ram b.ramWrites (T x) m) := by
  unfold Crosses at hfit
  obtain ⟨-, hoffset⟩ := hmap x hpage
  refine ⟨fun j => busPlace b.ram b.ramWrites (T (linear x j)), ?_, fun j hj => ?_⟩
  · rw [busPlaces_eq (by omega)]
    apply List.map_congr_left
    intro j hj
    have hj' := List.mem_range.mp hj
    rw [hmap.linear hpage (by omega)]
  · have hpage' : pageOf (linear x j) = pageOf y := (linear_page (by omega)).2.trans hpage
    exact Or.inr (Or.inr ⟨(tracked_page hpage').trans hnone, rfl⟩)

/-! ## Pieces -/

/-- What the store of a piece does to the lookups. -/
def pieceLookups (b : Machine) (T : BitVec 32 → BitVec 32) (addr : BitVec 32) (t : Lookups)
    (p : Extent) : Lookups :=
  let x := linear addr p.1
  if Windowed t x p.2 then t
  else if ((t.page_lookup (pageOf x)).filter b.hasWrite).isSome then t
  else if b.ramWrites (pageOf (T x)) = true ∧ b.cpu_use_exec = true then
    addwritelookup b.ram x (T x) t
  else t

/-- What is said of the store of a piece. -/
structure Piece (b : Machine) (T : BitVec 32 → BitVec 32) (y addr : BitVec 32)
    (data : List (BitVec 8)) (p : Extent) (s s' : Machine) : Prop where
  puts : PutsAt (OwnPlaces b T addr) data p.1 p.2 s s'
  kept : PageKept b T y s'
  lookups : s'.lookups = pieceLookups b T addr s.lookups p

theorem Gives.puts {places : List Place} (h : Gives b T (linear addr i) m places)
    (hstored : s'.stored = s.stored ++ places.zip ((data.drop i).take m)) :
    PutsAt (OwnPlaces b T addr) data i m s s' := by
  obtain ⟨place, rfl, hown⟩ := h
  simp only [linear_linear] at hown
  exact ⟨place, hstored, hown⟩

/-- A piece that makes no lookup. -/
theorem quiet_piece {p : Extent} {places : List Place} (h : PageKept b T y s)
    (hgives : Gives b T (linear addr p.1) p.2 places)
    (hsame : pieceLookups b T addr s.lookups p = s.lookups) :
    Piece b T y addr data p s (s.store places ((data.drop p.1).take p.2)) := by
  have hstores := h.stores.trans (stores_store places ((data.drop p.1).take p.2))
  have hkept := PageKept.of_tables (s := s) hstores rfl rfl h
  exact ⟨hgives.puts rfl, hkept, hsame.symm⟩

theorem writeMapped_made {d : List (BitVec 8)}
    (h : s.ramWrites (pageOf x) = true ∧ s.cpu_use_exec = true) : writeMapped x d s =
      { s with lookups := addwritelookup s.ram s.mem_logical_addr x s.lookups }.store
        (busPlaces s.ram s.ramWrites x d.length) d := by
  unfold writeMapped
  dsimp only
  rw [if_pos h]

theorem writeMapped_quiet {d : List (BitVec 8)}
    (h : ¬(s.ramWrites (pageOf x) = true ∧ s.cpu_use_exec = true)) : writeMapped x d s =
      s.store (busPlaces s.ram s.ramWrites x d.length) d := by
  unfold writeMapped
  dsimp only
  rw [if_neg h]

/-- A piece behind the mapping of its physical address. -/
theorem mapped_piece {p : Extent} (hmap : OnePage T y) (hnone : tracked b y = none)
    (h : PageKept b T y s) (hat : s.mem_logical_addr = linear addr p.1)
    (hpage : pageOf (linear addr p.1) = pageOf y) (hfit : ¬Crosses (linear addr p.1) p.2)
    (hlen : p.1 + p.2 ≤ data.length)
    (hlookups : pieceLookups b T addr s.lookups p =
      if b.ramWrites (pageOf (T (linear addr p.1))) = true ∧ b.cpu_use_exec = true then
        addwritelookup b.ram (linear addr p.1) (T (linear addr p.1)) s.lookups
      else s.lookups) :
    Piece b T y addr data p s
      (writeMapped (T (linear addr p.1)) ((data.drop p.1).take p.2) s) := by
  have hram : s.ram = b.ram := by rw [h.stores]
  have hwrites : s.ramWrites = b.ramWrites := by rw [h.stores]
  have hexec : s.cpu_use_exec = b.cpu_use_exec := by rw [h.stores]
  have hgives := bus_gives hmap hnone hpage hfit
  have hins := addwritelookup_inserted b.ram (linear addr p.1) (T (linear addr p.1)) s.lookups
  have hstores := h.stores.trans
    (stores_writeMapped (x := T (linear addr p.1)) ((data.drop p.1).take p.2))
  rw [← hram] at hlookups hgives
  rw [← hwrites] at hlookups hgives
  rw [← hexec] at hlookups
  by_cases hmakes : s.ramWrites (pageOf (T (linear addr p.1))) = true ∧ s.cpu_use_exec = true
  · rw [if_pos hmakes] at hlookups
    rw [writeMapped_made hmakes, length_part hlen, hat] at hstores ⊢
    have hfresh : Fresh b T y := ⟨hnone, (hmap _ hpage).1 ▸ hwrites ▸ hmakes.1⟩
    refine ⟨hgives.puts rfl, PageKept.inserted hmap hfresh hstores h hpage ?_, hlookups.symm⟩
    rw [← hram] at hins ⊢
    exact hins
  · rw [if_neg hmakes] at hlookups
    rw [writeMapped_quiet hmakes, length_part hlen]
    exact quiet_piece h hgives hlookups

theorem piece_at {p : Extent} (hready : tracked b y = none → Ready b T y a64 addr p)
    (h : PageKept b T y s) (hat : s.mem_logical_addr = linear addr p.1)
    (hpage : pageOf (linear addr p.1) = pageOf y) (hfit : ¬Crosses (linear addr p.1) p.2)
    (hlen : p.1 + p.2 ≤ data.length) :
    Piece b T y addr data p s
      (if Windowed s.lookups (linear addr p.1) p.2 then
        writeWindow (linear addr p.1) ((data.drop p.1).take p.2) s
      else writeWhole (linear addr p.1) (a64 p.1) ((data.drop p.1).take p.2) s) := by
  have hmap := fun hnone => (hready hnone).map
  have hhas : s.hasWrite = b.hasWrite := by rw [h.stores]
  have hmask : s.rammask = b.rammask := by rw [h.stores]
  have hpaging : paging s ↔ paging b := by
    rw [h.stores]
    exact Iff.rfl
  by_cases hwindow : Windowed s.lookups (linear addr p.1) p.2
  · have hgives := window_gives hmap h hpage hfit hwindow.2
    rw [if_pos hwindow]
    unfold writeWindow
    rw [length_part hlen]
    exact quiet_piece h hgives (if_pos hwindow)
  rw [if_neg hwindow]
  have hlookups : pieceLookups b T addr s.lookups p =
      if (tracked s (linear addr p.1)).isSome then s.lookups
      else if b.ramWrites (pageOf (T (linear addr p.1))) = true ∧ b.cpu_use_exec = true then
        addwritelookup b.ram (linear addr p.1) (T (linear addr p.1)) s.lookups
      else s.lookups := by
    unfold pieceLookups tracked
    dsimp only
    rw [if_neg hwindow, hhas]
  cases htracked : tracked s (linear addr p.1) with
  | some page =>
    rw [htracked] at hlookups
    rw [writeWhole_tracked htracked, length_part hlen]
    exact quiet_piece h (cell_gives hmap h hpage hfit htracked) hlookups
  | none =>
    rw [htracked] at hlookups
    have hnone := h.kept ((tracked_page hpage.symm).trans htracked)
    obtain ⟨hrunning, hone, haddress⟩ := hready hnone
    have hgo : ¬Stopped s := fun hs => hrunning (h.stores.stopped.mp hs)
    have htarget : (if paging s then a64 p.1 else linear addr p.1) &&& s.rammask =
        T (linear addr p.1) := by
      rw [← haddress, ← hmask]
      simp only [hpaging]
    rw [writeWhole_running htracked hgo, htarget]
    exact mapped_piece hone hnone h hat hpage hfit hlen hlookups

theorem storePiece_spec {p : Extent} (hready : tracked b y = none → Ready b T y a64 addr p)
    (h : PageKept b T y s) (hpage : pageOf (linear addr p.1) = pageOf y)
    (hfit : ¬Crosses (linear addr p.1) p.2) (hlen : p.1 + p.2 ≤ data.length) :
    Piece b T y addr data p s (storePiece addr a64 data s p) := by
  have hstores : Stores s { s with mem_logical_addr := linear addr p.1 } := rfl
  have hkept := PageKept.of_tables (s := s) (h.stores.trans hstores) rfl rfl h
  have hspec := piece_at hready hkept rfl hpage hfit hlen
  exact ⟨hspec.puts, hspec.kept, hspec.lookups⟩

/-- The pieces of one page. -/
theorem foldl_spec {ps : List Extent} (htile : Tiles i ps (i + m)) (hlen : i + m ≤ data.length)
    (hready : tracked b y = none → ∀ p ∈ ps, Ready b T y a64 addr p)
    (hpage : ∀ p ∈ ps, pageOf (linear addr p.1) = pageOf y)
    (hfit : ∀ p ∈ ps, ¬Crosses (linear addr p.1) p.2) (h : PageKept b T y s) :
    PutsAt (OwnPlaces b T addr) data i m s (ps.foldl (storePiece addr a64 data) s) ∧
      PageKept b T y (ps.foldl (storePiece addr a64 data) s) ∧
      (ps.foldl (storePiece addr a64 data) s).lookups =
        ps.foldl (pieceLookups b T addr) s.lookups := by
  induction ps generalizing i m s with
  | nil =>
    have hzero : m = 0 := by
      have hend := htile.nil_eq
      omega
    subst hzero
    exact ⟨⟨fun _ => .host 0, (List.append_nil _).symm, fun j hj => absurd hj (by omega)⟩, h, rfl⟩
  | cons p ps ih =>
    obtain ⟨rfl, hrest⟩ := htile.head
    have hle := hrest.le
    obtain ⟨k, rfl⟩ : ∃ k, m = p.2 + k := ⟨m - p.2, by omega⟩
    have hspec := @storePiece_spec _ _ _ _ _ data _ _
      (fun hnone => hready hnone p List.mem_cons_self) h (hpage p List.mem_cons_self)
      (hfit p List.mem_cons_self) (by omega)
    rw [← Nat.add_assoc] at hrest
    obtain ⟨hputs, hkept, hlookups⟩ := ih hrest (by omega)
      (fun hnone q hq => hready hnone q (List.mem_cons_of_mem _ hq))
      (fun q hq => hpage q (List.mem_cons_of_mem _ hq))
      (fun q hq => hfit q (List.mem_cons_of_mem _ hq)) hspec.kept
    refine ⟨hspec.puts.append hputs (by omega), hkept, hlookups.trans ?_⟩
    rw [hspec.lookups, List.foldl_cons]

end

end blumach.mem_access
