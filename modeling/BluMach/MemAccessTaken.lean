-- A store in two pages of which none is refused. The pieces of the first page go where that page
-- is. Those of the second one do as well, unless it was not walked and the pieces before them took
-- the slot of its entry: then they go to its linear address.
import BluMach.MemAccessOutcomes

namespace blumach.mem_access

open bit_fields mem_lookup mmu tiling

/-- The bytes were stored in their order, each at a place of its own page. -/
def Puts (s : Machine) (addr : BitVec 32) (data : List (BitVec 8)) (s' : Machine) : Prop :=
  ∃ place : Nat → Place,
    s'.stored = s.stored ++ ((List.range data.length).map place).zip data ∧
    ∀ j < data.length, OwnWrite s (linear addr j) (place j)

/-- Each half lies in one page, if an abort is pending. -/
def NotCut (s : Machine) (addr : BitVec 32) (k : Nat) : Prop :=
  paging s → s.mmu.abrt ≠ 0 → inFirst addr = 2 ^ k

/-- The second page has an entry in `page_lookup`, so that it is not walked, and the pieces in the
first one take the slot of that entry. -/
def Recycled (s : Machine) (addr : BitVec 32) (k : Nat) : Prop :=
  tracked s (lastByte addr (2 ^ (k + 1))) ≠ none ∧
    InSlots s.lookups (pageOf (lastByte addr (2 ^ (k + 1))))
      (slotsTaken s (target true s) addr (firstPieces addr (k + 1)))

instance (s : Machine) (addr : BitVec 32) (k : Nat) : Decidable (Recycled s addr k) :=
  inferInstanceAs (Decidable (_ ∧ _))

/-- The place of a linear address, as it is without a walk. -/
def linearPlace (s : Machine) (x : BitVec 32) : Place :=
  busPlace s.ram s.ramWrites (x &&& s.rammask)

/-- The entry of the second page outlasts the pieces of the first one, or its bytes belong to their
linear addresses. -/
def Kept (s : Machine) (addr : BitVec 32) (k : Nat) : Prop :=
  Recycled s addr k → ∀ j < 2 ^ (k + 1), inFirst addr ≤ j →
    OwnWrite s (linear addr j) (linearPlace s (linear addr j))

/-- What the loop of translations leaves when it comes to its end, and what there is without
paging. -/
structure Done (s : Machine) (addr : BitVec 32) (n : Nat) (a64 : Nat → BitVec 32)
    (b : Machine) : Prop where
  along : Along (begin addr s) b
  right : Right true (begin addr s) addr n a64
  skipped : ∀ j, Skips true s (linear addr j) → a64 j = linear addr j

section

variable {s b f : Machine} {addr : BitVec 32} {k n : Nat} {a64 : Nat → BitVec 32}
  {data : List (BitVec 8)} {place : Place} {x p : BitVec 32}

/-! ## The state before the stores -/

theorem Done.own (h : Done s addr n a64 b) : OwnPlace b x p place ↔ OwnPlace s x p place := by
  obtain ⟨h', rfl, -⟩ := h.along
  exact Iff.rfl

theorem Done.same (h : Done s addr n a64 b) : b.stored = s.stored ∧ b.lookups = s.lookups ∧
    b.rammask = s.rammask ∧ b.ram = s.ram ∧ b.ramWrites = s.ramWrites ∧
    (∀ x, tracked b x = tracked s x) ∧ (paging b ↔ paging s) := by
  obtain ⟨h', rfl, -⟩ := h.along
  exact ⟨rfl, rfl, rfl, rfl, rfl, fun _ => rfl, Iff.rfl⟩

theorem Done.stopped (h : Done s addr n a64 b) :
    Stopped b ↔ paging s ∧ s.mmu.abrt ≠ 0 := by
  obtain ⟨h', rfl, -⟩ := h.along
  constructor
  · rintro ⟨hp, habrt | hhigh⟩
    · exact ⟨hp, habrt⟩
    · exact absurd hhigh Bool.false_ne_true
  · exact fun h => ⟨h.1, Or.inl h.2⟩

/-- With an abort pending, a page that is not refused is not walked. -/
theorem skips_of_stopped (hno : ¬Refused true s x) (hp : paging s) (habrt : s.mmu.abrt ≠ 0) :
    tracked s x ≠ none := by
  by_contra hnone
  refine hno ⟨hp, fun hs => skips_write.mp hs hnone, ?_⟩
  unfold High physical
  rw [real_stopped x true habrt]
  exact (by decide : (0xffffffff : BitVec 64) < PHYS_INVALID)

theorem kept_self (T : BitVec 32 → BitVec 32) (y : BitVec 32) : PageKept b T y b :=
  ⟨rfl, fun _ => Or.inl rfl, fun _ h => Or.inl h, fun h => h⟩

/-- A page that is walked is ready for its pieces. -/
theorem Done.ready (h : Done s addr n a64 b) {y : BitVec 32} {q : Extent}
    (hno : ¬Refused true s y) (hnone : tracked b y = none) (hq : q.1 < n)
    (hpage : pageOf (linear addr q.1) = pageOf y) :
    Ready b (target true s) y a64 addr q := by
  obtain ⟨-, -, hmask, -, -, htracked, hpaging⟩ := h.same
  rw [htracked] at hnone
  have hskip : ¬Skips true s (linear addr q.1) := fun hs =>
    skips_write.mp hs ((tracked_page hpage).trans hnone)
  obtain ⟨hwalk, haddress⟩ := h.right q.1 hq hskip
  have hwalk' : Walkable true s y := fun hp hhigh =>
    hno ⟨hp, fun hs => skips_write.mp hs hnone, hhigh⟩
  refine ⟨fun hs => ?_, fun x hx => target_same_page hwalk' hx.symm, ?_⟩
  · obtain ⟨hp, habrt⟩ := h.stopped.mp hs
    exact skips_of_stopped hno hp habrt hnone
  · unfold target
    rw [hmask]
    by_cases hp : paging s
    · rw [if_pos (hpaging.mpr hp), if_pos hp, haddress hp]
      rfl
    · rw [if_neg fun hb => hp (hpaging.mp hb), if_neg hp]

/-! ## The pieces of both pages -/

/-- All pieces are stored, when nothing has stopped them or the halves are pieces. -/
theorem halves_eq (hcross : Crosses addr (2 ^ (k + 1)))
    (h : ¬Stopped b ∨ inFirst addr = 2 ^ k) :
    storeHalves addr data k a64 b =
      (pieces addr (k + 1) 0).foldl (storePiece addr a64 data) b := by
  have hcross' : Crosses (linear addr 0) (2 ^ (k + 1)) := by
    rw [linear_zero]
    exact hcross
  have hsplit : pieces addr (k + 1) 0 = pieces addr k 0 ++ pieces addr k (2 ^ k) := by
    rw [pieces, if_pos hcross', Nat.zero_add]
  unfold storeHalves
  rw [hsplit, List.foldl_append]
  by_cases hs : Stopped b
  · have hhalf := h.resolve_left (not_not.mpr hs)
    have hlt := addr.isLt
    have hpos := Nat.two_pow_pos k
    unfold inFirst at hhalf
    have hfit : ∀ i, i = 0 ∨ i = 2 ^ k → ¬Crosses (linear addr i) (2 ^ k) := by
      unfold Crosses
      intro i hi
      rw [linear_toNat]
      rcases hi with rfl | rfl
      · omega
      · omega
    have hpiece : ∀ i, i = 0 ∨ i = 2 ^ k → pieces addr k i = [(i, 2 ^ k)] := by
      intro i hi
      cases k with
      | zero => rfl
      | succ k => rw [pieces, if_neg (hfit i hi)]
    rw [storeSized_whole (hfit _ (Or.inl rfl)), storeSized_whole (hfit _ (Or.inr rfl)),
      hpiece _ (Or.inl rfl), hpiece _ (Or.inr rfl)]
    rfl
  · rw [storeSized_eq hs, storeSized_eq fun hs' => hs ((stores_foldl _).stopped.mp hs')]

theorem pieces_pos {i : Nat} {q : Extent} (h : q ∈ pieces addr k i) : 0 < q.2 := by
  induction k generalizing i with
  | zero =>
    obtain rfl := List.mem_singleton.mp h
    exact Nat.one_pos
  | succ k ih =>
    unfold pieces at h
    split_ifs at h
    · exact (List.mem_append.mp h).elim (fun h => ih h) fun h => ih h
    · obtain rfl := List.mem_singleton.mp h
      exact Nat.two_pow_pos _

theorem length_pieces (k i : Nat) : (pieces addr k i).length ≤ 2 ^ k := by
  induction k generalizing i with
  | zero => exact Nat.le_refl _
  | succ k ih =>
    have hpow := Nat.pow_succ 2 k
    have hpos := Nat.two_pow_pos k
    have hfirst := ih i
    have hsecond := ih (i + 2 ^ k)
    unfold pieces
    split_ifs
    · rw [List.length_append]
      omega
    · rw [List.length_singleton]
      omega

/-- The pieces of the first page and those of the second. -/
structure Cut (addr : BitVec 32) (k : Nat) (qs : List Extent) : Prop where
  eq : pieces addr (k + 1) 0 = firstPieces addr (k + 1) ++ qs
  first : Tiles 0 (firstPieces addr (k + 1)) (inFirst addr)
  second : Tiles (inFirst addr) qs (2 ^ (k + 1))
  fit : ∀ q ∈ firstPieces addr (k + 1) ++ qs, ¬Crosses (linear addr q.1) q.2
  here : ∀ q ∈ firstPieces addr (k + 1), pageOf (linear addr q.1) = pageOf addr ∧
    q.1 < 2 ^ (k + 1)
  there : ∀ q ∈ qs, pageOf (linear addr q.1) = pageOf (lastByte addr (2 ^ (k + 1))) ∧
    q.1 < 2 ^ (k + 1)

theorem cut_exists (hk : k ≤ 2) (hcross : Crosses addr (2 ^ (k + 1))) : ∃ qs, Cut addr k qs := by
  have hlt := inFirst_lt hcross
  have hn : 2 ^ (k + 1) ≤ 8 := Nat.pow_le_pow_right (by decide) (show k + 1 ≤ 3 by omega)
  have htile := pieces_tile addr (k + 1) 0
  rw [Nat.zero_add] at htile
  have hfit : ∀ q ∈ pieces addr (k + 1) 0, ¬Crosses (linear addr q.1) q.2 :=
    fun q hq => pieces_fit hq
  have hsides : ∀ q ∈ pieces addr (k + 1) 0, q.1 + q.2 ≤ inFirst addr ∨ inFirst addr ≤ q.1 := by
    intro q hq
    have hin := hfit q hq
    by_cases hlow : q.1 < inFirst addr
    · unfold Crosses at hin
      unfold inFirst at hlow ⊢
      have haddr := addr.isLt
      rw [(linear_page (by omega)).1] at hin
      omega
    · exact Or.inr (Nat.le_of_not_lt hlow)
  obtain ⟨hfirst, hsecond, heq⟩ := htile.cut (Nat.zero_le _) hlt.le hsides
  refine ⟨_, heq, hfirst, hsecond, heq ▸ hfit, fun q hq => ?_, fun q hq => ?_⟩
  · have hin : q.1 < inFirst addr := of_decide_eq_true (List.mem_filter.mp hq).2
    exact ⟨first_page hin, by omega⟩
  · obtain ⟨hmem, hno⟩ := List.mem_filter.mp hq
    have hpos := pieces_pos hmem
    have hend := (htile.bounds hmem).2
    have hin : inFirst addr ≤ q.1 := Nat.le_of_not_lt (of_decide_eq_true hno)
    exact ⟨second_page hn hin (by omega), by omega⟩

/-- The pieces of the first page go where it is. -/
theorem Done.first (h : Done s addr (2 ^ (k + 1)) a64 b) {qs : List Extent} (hcut : Cut addr k qs)
    (hcross : Crosses addr (2 ^ (k + 1))) (hlen : data.length = 2 ^ (k + 1))
    (hno : ¬Refused true s addr) :
    PutsAt (OwnPlaces b (target true s) addr) data 0 (inFirst addr) b
        ((firstPieces addr (k + 1)).foldl (storePiece addr a64 data) b) ∧
      ((firstPieces addr (k + 1)).foldl (storePiece addr a64 data) b).lookups =
        (firstPieces addr (k + 1)).foldl (pieceLookups b (target true s) addr) b.lookups := by
  have hlt := inFirst_lt hcross
  have htile := hcut.first
  rw [← Nat.zero_add (inFirst addr)] at htile
  have hspec := @foldl_spec _ _ _ _ _ _ _ data a64 _ htile (by omega)
    (fun hnone q hq => h.ready hno hnone (hcut.here q hq).2 (hcut.here q hq).1)
    (fun q hq => (hcut.here q hq).1) (fun q hq => hcut.fit q (List.mem_append_left _ hq))
    (kept_self (target true s) addr)
  exact ⟨hspec.1, hspec.2.2⟩

/-- What the pieces of the first page leave of the second one. -/
theorem Done.ring (h : Done s addr (2 ^ (k + 1)) a64 b) {qs : List Extent}
    (hcut : Cut addr k qs) (hk : k ≤ 2) (hcross : Crosses addr (2 ^ (k + 1)))
    (hno : ¬Refused true s addr)
    (hlookups : f.lookups =
      (firstPieces addr (k + 1)).foldl (pieceLookups b (target true s) addr) b.lookups) :
    RingAfter s.lookups f.lookups (pageOf (lastByte addr (2 ^ (k + 1))))
      (slotsTaken s (target true s) addr (firstPieces addr (k + 1))) := by
  have hn : 2 ^ (k + 1) ≤ 8 := Nat.pow_le_pow_right (by decide) (show k + 1 ≤ 3 by omega)
  have hlength : (firstPieces addr (k + 1)).length ≤ 256 := by
    have hall := @length_pieces addr (k + 1) 0
    have hfilter := List.length_filter_le (fun q : Extent => decide (q.1 < inFirst addr))
      (pieces addr (k + 1) 0)
    unfold firstPieces
    omega
  have hmap : b.lookups.page_lookup (pageOf addr) = none → OnePage (target true s) addr := by
    intro hentry
    have hnone : tracked b addr = none := by
      unfold tracked
      rw [hentry]
      rfl
    have hpos := @inFirst_pos addr
    have hzero : pageOf (linear addr 0) = pageOf addr := by rw [linear_zero]
    exact (h.ready (q := (0, 1)) hno hnone (Nat.two_pow_pos _) hzero).map
  have hring := ring_spec hmap (fun q hq => (hcut.here q hq).1) (pages_differ hn hcross) hlength
  rw [hlookups]
  obtain ⟨h', rfl, -⟩ := h.along
  exact hring

theorem tracked_gone (h : Gone f.lookups (pageOf x)) : tracked f x = none := by
  unfold tracked
  rw [h.1]
  rfl

/-- The entries of the second page stay, or it has none for the loop to pass over. -/
theorem Done.second_kept (h : Done s addr (2 ^ (k + 1)) a64 b) (hstores : Stores b f)
    (hring : RingAfter s.lookups f.lookups (pageOf (lastByte addr (2 ^ (k + 1))))
      (slotsTaken s (target true s) addr (firstPieces addr (k + 1))))
    (hrecycled : ¬Recycled s addr k) :
    PageKept b (target true s) (lastByte addr (2 ^ (k + 1))) f := by
  obtain ⟨-, hlookups, -, -, -, htracked, -⟩ := h.same
  by_cases hin : InSlots s.lookups (pageOf (lastByte addr (2 ^ (k + 1))))
      (slotsTaken s (target true s) addr (firstPieces addr (k + 1)))
  · have hgone := hring.gone hin
    have hnone := tracked_gone hgone
    refine ⟨hstores, fun hlive => absurd hgone.2 hlive, fun page hpage => ?_, fun _ => ?_⟩
    · rw [hnone] at hpage
      exact absurd hpage nofun
    · rw [htracked]
      by_contra hentry
      exact hrecycled ⟨hentry, hin⟩
  · obtain ⟨hpage, hwindow⟩ := hring.same hin
    rw [← hlookups] at hpage hwindow
    exact PageKept.of_tables hstores hwindow hpage (kept_self _ _)

/-- The pieces of the second page, when its entries stay. -/
theorem Done.second (h : Done s addr (2 ^ (k + 1)) a64 b) {qs : List Extent}
    (hcut : Cut addr k qs) (hcross : Crosses addr (2 ^ (k + 1)))
    (hlen : data.length = 2 ^ (k + 1)) (hno : ¬Refused true s (lastByte addr (2 ^ (k + 1))))
    (hkept : PageKept b (target true s) (lastByte addr (2 ^ (k + 1))) f) :
    PutsAt (OwnPlaces b (target true s) addr) data (inFirst addr)
      (2 ^ (k + 1) - inFirst addr) f (qs.foldl (storePiece addr a64 data) f) := by
  have hlt := inFirst_lt hcross
  have htile := hcut.second
  have hsum : 2 ^ (k + 1) = inFirst addr + (2 ^ (k + 1) - inFirst addr) := by omega
  rw [hsum] at htile
  exact (@foldl_spec _ _ _ _ _ _ _ data a64 _ htile (by omega)
    (fun hnone q hq => h.ready hno hnone (hcut.there q hq).2 (hcut.there q hq).1)
    (fun q hq => (hcut.there q hq).1) (fun q hq => hcut.fit q (List.mem_append_right _ hq))
    hkept).1

/-- When they are gone, its linear address is what there is. -/
theorem Done.second_linear (h : Done s addr (2 ^ (k + 1)) a64 b) {qs : List Extent}
    (hcut : Cut addr k qs) (hk : k ≤ 2) (hcross : Crosses addr (2 ^ (k + 1)))
    (hlen : data.length = 2 ^ (k + 1)) (hstores : Stores b f) (hrunning : ¬Stopped b)
    (hentry : tracked s (lastByte addr (2 ^ (k + 1))) ≠ none)
    (hgone : Gone f.lookups (pageOf (lastByte addr (2 ^ (k + 1))))) :
    PutsAt (fun j place => place = linearPlace s (linear addr j)) data (inFirst addr)
      (2 ^ (k + 1) - inFirst addr) f (qs.foldl (storePiece addr a64 data) f) := by
  have hn : 2 ^ (k + 1) ≤ 8 := Nat.pow_le_pow_right (by decide) (show k + 1 ≤ 3 by omega)
  have hlt := inFirst_lt hcross
  obtain ⟨-, -, hmask, hram, hwrites, -, -⟩ := h.same
  have hmask' : f.rammask = s.rammask := by rw [hstores, hmask]
  have hram' : f.ram = s.ram := by rw [hstores, hram]
  have hwrites' : f.ramWrites = s.ramWrites := by rw [hstores, hwrites]
  have hone : OnePage (fun x => x &&& s.rammask) (lastByte addr (2 ^ (k + 1))) := by
    intro x hx
    obtain ⟨hoffset, hpage⟩ := masked_parts s x
    obtain ⟨-, hpage'⟩ := masked_parts s (lastByte addr (2 ^ (k + 1)))
    refine ⟨pageOf_eq_iff.mpr ?_, hoffset⟩
    rw [hpage, hpage', pageOf_eq_iff.mp hx]
  have hready : ∀ q ∈ qs, Ready f (fun x => x &&& s.rammask) (lastByte addr (2 ^ (k + 1))) a64 addr
      q := by
    intro q hq
    have hskip : Skips true s (linear addr q.1) :=
      (skips_same (hcut.there q hq).1).mpr (skips_write.mpr hentry)
    refine ⟨fun hs => hrunning (hstores.stopped.mp hs), hone, ?_⟩
    rw [h.skipped q.1 hskip, ite_self, hmask']
  have htile := hcut.second
  have hsum : 2 ^ (k + 1) = inFirst addr + (2 ^ (k + 1) - inFirst addr) := by omega
  rw [hsum] at htile
  have hspec := (@foldl_spec _ _ _ _ _ _ _ data a64 _ htile (by omega) (fun _ => hready)
    (fun q hq => (hcut.there q hq).1) (fun q hq => hcut.fit q (List.mem_append_right _ hq))
    (kept_self _ (lastByte addr (2 ^ (k + 1))))).1
  refine hspec.mono fun j hj hj' place hown => ?_
  have hpage : pageOf (linear addr j) = pageOf (lastByte addr (2 ^ (k + 1))) :=
    second_page hn hj (by omega)
  rw [← hpage] at hgone
  rcases hown with ⟨page, hpage, -⟩ | ⟨hlive, -⟩ | ⟨-, hplace⟩
  · rw [tracked_gone hgone] at hpage
    exact absurd hpage nofun
  · exact absurd hgone.2 hlive
  · unfold linearPlace
    rw [hplace, hram', hwrites']

/-! ## The whole store -/

theorem puts_iff (hlen : data.length = n) : Puts s addr data f ↔
    PutsAt (fun j place => OwnWrite s (linear addr j) place) data 0 n s f := by
  subst hlen
  unfold Puts PutsAt
  rw [List.drop_zero, List.take_length]
  simp only [Nat.zero_add]

theorem PutsAt.of_stored {P : Nat → Place → Prop} {i m : Nat} (h : PutsAt P data i m b f)
    (hb : b.stored = s.stored) : PutsAt P data i m s f := by
  obtain ⟨place, hstored, hown⟩ := h
  exact ⟨place, hb ▸ hstored, hown⟩

theorem Done.owns (h : Done s addr n a64 b) {i m : Nat} {f' : Machine}
    (hputs : PutsAt (OwnPlaces b (target true s) addr) data i m f f') :
    PutsAt (fun j place => OwnWrite s (linear addr j) place) data i m f f' :=
  hputs.mono fun _ _ _ _ hown => h.own.mp hown

/-- A store that makes lookups is not stopped. -/
theorem Done.running (h : Done s addr n a64 b) (hno : ¬Refused true s addr)
    (hrecycled : Recycled s addr k) : ¬Stopped b := by
  intro hs
  obtain ⟨hp, habrt⟩ := h.stopped.mp hs
  obtain ⟨-, i, hi, -⟩ := hrecycled
  unfold slotsTaken at hi
  by_cases hmakes : s.lookups.page_lookup (pageOf addr) = none ∧
      s.ramWrites (pageOf (target true s addr)) = true ∧ s.cpu_use_exec = true
  · refine skips_of_stopped hno hp habrt ?_
    unfold tracked
    rw [hmakes.1]
    rfl
  · rw [if_neg hmakes] at hi
    omega

/-- With a half cut, bytes are missing. -/
theorem Done.cut_short (h : Done s addr (2 ^ (k + 1)) a64 b) (hcross : Crosses addr (2 ^ (k + 1)))
    (hlen : data.length = 2 ^ (k + 1)) (hs : Stopped b) (hcut : inFirst addr ≠ 2 ^ k) :
    ¬Puts s addr data (storeHalves addr data k a64 b) := by
  intro hputs
  have hpow := Nat.pow_succ 2 k
  have hpos := Nat.two_pow_pos k
  have hlt := addr.isLt
  have hhalf : Crosses addr (2 ^ k) ∨ Crosses (linear addr (2 ^ k)) (2 ^ k) := by
    by_cases hsmall : inFirst addr < 2 ^ k
    · refine Or.inl ?_
      unfold inFirst at hsmall
      unfold Crosses
      omega
    · refine Or.inr ?_
      unfold inFirst at hsmall hcut
      unfold Crosses at hcross ⊢
      rw [(linear_page (by omega)).1]
      omega
  have hshort := (@stopped_halves _ _ a64 _ _ hs hlen).2 hhalf
  have hall := ((puts_iff hlen).mp hputs).length (by omega)
  rw [h.same.1] at hshort
  omega

/-- With no page refused, each byte is stored where its own page is exactly when no half is cut and
the entry of the second page is kept. -/
theorem Done.puts_iff (h : Done s addr (2 ^ (k + 1)) a64 b) (hk : k ≤ 2)
    (hcross : Crosses addr (2 ^ (k + 1))) (hlen : data.length = 2 ^ (k + 1))
    (hfirst : ¬Refused true s addr) (hlast : ¬Refused true s (lastByte addr (2 ^ (k + 1)))) :
    Puts s addr data (storeHalves addr data k a64 b) ↔ NotCut s addr k ∧ Kept s addr k := by
  by_cases hgo : ¬Stopped b ∨ inFirst addr = 2 ^ k
  swap
  · obtain ⟨hs, hcut⟩ := not_or.mp hgo
    have hs' := not_not.mp hs
    obtain ⟨hp, habrt⟩ := h.stopped.mp hs'
    exact iff_of_false (h.cut_short hcross hlen hs' hcut) fun hc => hcut (hc.1 hp habrt)
  have hnotcut : NotCut s addr k := fun hp habrt =>
    hgo.resolve_left (not_not.mpr (h.stopped.mpr ⟨hp, habrt⟩))
  obtain ⟨qs, hcut⟩ := cut_exists hk hcross
  have hlt := inFirst_lt hcross
  have hsum : inFirst addr + (2 ^ (k + 1) - inFirst addr) = 2 ^ (k + 1) := by omega
  obtain ⟨hputs, hlookups⟩ := h.first hcut hcross hlen hfirst
  have hstores := @stores_foldl b addr a64 data (firstPieces addr (k + 1))
  rw [and_iff_right hnotcut, halves_eq hcross hgo, hcut.eq, List.foldl_append,
    mem_access.puts_iff hlen]
  generalize (firstPieces addr (k + 1)).foldl (storePiece addr a64 data) b = f at *
  have hring := h.ring hcut hk hcross hfirst hlookups
  have hown := (h.owns hputs).of_stored h.same.1
  by_cases hrecycled : Recycled s addr k
  · have hsecond := h.second_linear hcut hk hcross hlen hstores (h.running hfirst hrecycled)
      hrecycled.1 (hring.gone hrecycled.2)
    constructor
    · intro hall _ j hj hle
      have hplaces : PutsAt
          (fun j place => inFirst addr ≤ j → place = linearPlace s (linear addr j))
          data 0 (inFirst addr + (2 ^ (k + 1) - inFirst addr)) s _ :=
        (hown.mono fun j _ hj _ _ hle' => absurd hle' (by omega)).append
          (by rw [Nat.zero_add]; exact hsecond.mono fun _ _ _ _ hplace _ => hplace) (by omega)
      rw [hsum] at hplaces
      obtain ⟨place, hwrite, hplace⟩ := hall.both hplaces (by omega) j hj
      rw [Nat.zero_add] at hwrite hplace
      rw [← hplace hle]
      exact hwrite
    · intro hkept
      have hrest := hsecond.mono (Q := fun j place => OwnWrite s (linear addr j) place)
        fun j hj hj' place hplace => hplace ▸ hkept hrecycled j (by omega) hj
      have hall := hown.append (by rw [Nat.zero_add]; exact hrest) (by omega)
      rwa [hsum] at hall
  · have hsecond := h.second hcut hcross hlen hlast (h.second_kept hstores hring hrecycled)
    refine iff_of_true ?_ fun hr => absurd hr hrecycled
    have hall := hown.append (by rw [Nat.zero_add]; exact h.owns hsecond) (by omega)
    rwa [hsum] at hall

end

end blumach.mem_access
