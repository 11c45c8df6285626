-- The accesses that lie in two pages. A store is all or nothing exactly when the loop before it
-- finds each fault in time, leaves no mark of the first page, and the entry of the second page
-- outlasts the pieces of the first.
import BluMach.MemAccessReads
import BluMach.MemAccessTaken

namespace blumach.mem_access

open bit_fields mem_lookup mmu

/-! ## Outcomes -/

/-- All of the memory, with the tables in it, is as before and there is an abort, for a page that
faults; or each byte is stored where its own page is, and every page has an address there. -/
def AllOrNothing (s : Machine) (addr : BitVec 32) (data : List (BitVec 8)) (s' : Machine) : Prop :=
  ((∃ j < data.length, Faults true s (linear addr j)) ∧
    s'.stored = s.stored ∧ s'.mmu.host = s.mmu.host ∧ s'.mmu.abrt ≠ 0) ∨
  ((∀ j < data.length, ¬Refused true s (linear addr j)) ∧ Puts s addr data s')

/-- There is an abort for a page that faults, or each byte is read where its own page is. -/
def ReadsOrAborts (s : Machine) (addr : BitVec 32) (n : Nat) (r : Machine × List Source) : Prop :=
  ((∃ j < n, Faults false s (linear addr j)) ∧ r.1.mmu.abrt ≠ 0) ∨
  ((∀ j < n, ¬Refused false s (linear addr j)) ∧ Reads s addr n r.2)

/-- When a store of two halves of `2 ^ k` bytes is all or nothing. With a fault, the walk of the
first page must set no bit, and what comes before the fault must end the store: the first page must
not have an address of 4 GiB or more where the loop is `checked`, and where it is not, no half may
go through a lookup. Without one, each page must have an address, no half be cut with an abort
pending, and the entry of the second page be kept. -/
def StoresWell (checked : Bool) (s : Machine) (addr : BitVec 32) (k : Nat) : Prop :=
  ((Faults true s addr ∨ Faults true s (lastByte addr (2 ^ (k + 1)))) ∧ Unmarked s addr ∧
    if checked = true then Refused true s addr → Faults true s addr
    else ¬HalfThrough s addr k 0 ∧ ¬HalfThrough s addr k (2 ^ k)) ∨
  (¬Refused true s addr ∧ ¬Refused true s (lastByte addr (2 ^ (k + 1))) ∧ NotCut s addr k ∧
    Kept s addr k)

/-- When a read is: no address of 4 GiB or more comes before a fault. -/
def ReadsWell (s : Machine) (addr : BitVec 32) (n : Nat) : Prop :=
  Faults false s addr ∨
  (¬Refused false s addr ∧
    (Faults false s (lastByte addr n) ∨ ¬Refused false s (lastByte addr n)))

section

variable {s s' : Machine} {rw checked : Bool} {addr : BitVec 32} {k n : Nat}
  {data : List (BitVec 8)} {r : Machine × Option (Nat → BitVec 32)}

/-! ## After the loops -/

/-- A loop of translations returns or it comes to its end. -/
def LoopSpec (rw : Bool) (s : Machine) (addr : BitVec 32) (n : Nat)
    (r : Machine × Option (Nat → BitVec 32)) : Prop :=
  Blocked rw (begin addr s) addr n r ∨
  ∃ b, r.2 = some b ∧ Translated rw (begin addr s) addr n 0 (linear addr) b r.1

/-- What is known of the loop before an access. -/
structure Loop (rw checked : Bool) (s : Machine) (addr : BitVec 32) (n : Nat)
    (r : Machine × Option (Nat → BitVec 32)) : Prop where
  spec : checked = true ∨ (∀ j < n, ¬Skips rw s (linear addr j) → ¬High rw s (linear addr j)) →
    LoopSpec rw s addr n r
  state : r.1 = if checked = true ∧ ¬Skips rw s addr ∧ High rw s addr then
      afterFirst rw addr (begin addr s)
    else afterBoth rw addr n (begin addr s)
  skipped : ∀ c, r.2 = some c → ∀ j, Skips rw s (linear addr j) → c j = linear addr j
  unchecked : checked = false → ∃ c, r.2 = some c

theorem eachLoop (rw : Bool) (addr : BitVec 32) (hw : WholePages s.mmu) :
    Loop rw true s addr 2 (translateEach rw addr 2 0 (linear addr) (begin addr s)) := by
  have hw' : WholePages (begin addr s).mmu := hw
  have hstate := @translateEach_state (begin addr s) rw addr (linear addr)
  refine ⟨fun _ => translateEach_spec hw' 2 0 (linear addr) (Along.refl (begin addr s)) rfl, ?_,
    fun c hc j hskip => translateEach_skipped (fun _ => Iff.rfl) hc hskip,
    fun h => absurd h (by decide)⟩
  rw [hstate]
  simp only [true_and]
  rfl

theorem bytesLoop (rw checked : Bool) (addr : BitVec 32) (hw : WholePages s.mmu) (hn : n ≤ 8)
    (h : Crosses addr n) :
    Loop rw checked s addr n
      (translateBytes rw checked addr n n 0 0 (linear addr) (begin addr s)) := by
  have hw' : WholePages (begin addr s).mmu := hw
  have hholds : Holds rw (begin addr s) addr 0 0 := fun h => absurd rfl h
  refine ⟨fun hlow => ?_, translateBytes_state hn h,
    fun c hc j hskip => translateBytes_skipped (fun _ => Iff.rfl) hc hskip, fun hc => ?_⟩
  · refine translateBytes_spec hw' (by omega) (fun hc => ?_) n 0 0 (linear addr)
      (Along.refl (begin addr s)) rfl hholds
    exact hlow.resolve_left fun ht => absurd (hc.symm.trans ht) (by decide)
  · subst hc
    exact translateBytes_unchecked

theorem Translated.no_refused {a64 b : Nat → BitVec 32}
    (h : Translated rw (begin addr s) addr n 0 a64 b s') :
    ∀ j < n, ¬Refused rw s (linear addr j) := by
  intro j hj hrefused
  obtain ⟨-, hskip, hhigh⟩ := hrefused
  exact (h.here j (by omega) hj hskip).1 hhigh

/-- A loop that compares returns at a byte that is refused. -/
theorem Loop.returns (h : Loop rw true s addr n r)
    (hrefused : ∃ j < n, Refused rw s (linear addr j)) : r.2 = none := by
  obtain ⟨j, hj, hbyte⟩ := hrefused
  rcases h.spec (Or.inl rfl) with hblocked | ⟨b, -, hdone⟩
  · exact hblocked.none
  · exact absurd hbyte (hdone.no_refused j hj)

/-- A loop comes to its end when no byte is refused. -/
theorem Loop.ends (h : Loop rw checked s addr n r) (hp : paging s)
    (hno : ∀ j < n, ¬Refused rw s (linear addr j)) :
    ∃ c, r.2 = some c ∧ Translated rw (begin addr s) addr n 0 (linear addr) c r.1 := by
  rcases h.spec (Or.inr fun j hj hskip hhigh => hno j hj ⟨hp, hskip, hhigh⟩) with hblocked | hdone
  · obtain ⟨j, hj, hskip, hhigh, -⟩ := hblocked.byte
    exact absurd ⟨hp, hskip, hhigh⟩ (hno j hj)
  · exact hdone

/-- The part of a split access behind its translations. -/
def finish {A : Type} (nothing : Machine → A) (go : (Nat → BitVec 32) → Machine → A)
    (r : Machine × Option (Nat → BitVec 32)) : A :=
  match r.2 with
  | none => nothing r.1
  | some a64 => go a64 r.1

/-- The translations of an access in two pages. -/
def translations (s : Machine) (addr : BitVec 32) (r : Machine × Option (Nat → BitVec 32)) :
    Machine × Option (Nat → BitVec 32) :=
  if paging (begin addr s) then r else (begin addr s, some (linear addr))

section

variable {A : Type} (nothing : Machine → A) (go : (Nat → BitVec 32) → Machine → A)

theorem finish_none (hp : paging s) (h : r.2 = none) :
    finish nothing go (translations s addr r) = nothing r.1 := by
  have hp' : paging (begin addr s) := hp
  unfold finish translations
  rw [if_pos hp', h]

theorem finish_some {c : Nat → BitVec 32} (hp : paging s) (h : r.2 = some c) :
    finish nothing go (translations s addr r) = go c r.1 := by
  have hp' : paging (begin addr s) := hp
  unfold finish translations
  rw [if_pos hp', h]

theorem finish_linear (hp : ¬paging s) :
    finish nothing go (translations s addr r) = go (linear addr) (begin addr s) := by
  have hp' : ¬paging (begin addr s) := hp
  unfold finish translations
  rw [if_neg hp']

/-- With no byte refused the parts follow, with the addresses that the walks gave. -/
theorem finish_taken (hloop : paging s → Loop rw checked s addr n r)
    (hno : ∀ j < n, ¬Refused rw s (linear addr j)) :
    ∃ a64 b, finish nothing go (translations s addr r) = go a64 b ∧
      Along (begin addr s) b ∧ Right rw (begin addr s) addr n a64 ∧
      ∀ j, Skips rw s (linear addr j) → a64 j = linear addr j := by
  by_cases hp : paging s
  · obtain ⟨c, hc, hdone⟩ := (hloop hp).ends hp hno
    exact ⟨c, r.1, finish_some nothing go hp hc, hdone.along, hdone.right,
      (hloop hp).skipped c hc⟩
  · exact ⟨linear addr, begin addr s, finish_linear nothing go hp, Along.refl _,
      Right.of_no_paging hp, fun _ _ => rfl⟩

end

/-! ## Faults -/

theorem Loop.rest (h : Loop rw checked s addr n r) :
    r.1 = { begin addr s with mmu := r.1.mmu } := by
  rw [h.state]
  split_ifs
  · exact afterFirst_rest
  · exact afterBoth_rest

theorem Loop.still_paging (h : Loop rw checked s addr n r) : paging r.1 ↔ paging s := by
  rw [h.state]
  split_ifs
  · exact afterFirst_paging
  · exact afterFirst_paging.trans afterFirst_paging

/-- After a fault there is an abort, and the tables are as the walk of the first page left them. -/
theorem Loop.faults (h : Loop rw checked s addr n r) (hw : WholePages s.mmu)
    (hfault : Faults rw s addr ∨ Faults rw s (lastByte addr n))
    (hfirst : checked = true → Refused rw s addr → Faults rw s addr) :
    r.1.mmu.abrt ≠ 0 ∧ r.1.mmu.host = (afterFirst rw addr (begin addr s)).mmu.host := by
  have hw' : WholePages (begin addr s).mmu := hw
  rw [h.state]
  by_cases hfault₁ : Faults rw s addr
  · obtain ⟨-, hskip, hfail⟩ := hfault₁
    obtain ⟨hhost, habrt⟩ := afterFirst_fails (s := begin addr s) hskip hfail
    obtain ⟨hhost', habrt'⟩ := afterBoth_first (s := begin addr s) (n := n) hskip hfail
    split_ifs
    · exact ⟨habrt, rfl⟩
    · exact ⟨habrt', hhost'.trans hhost.symm⟩
  · obtain ⟨hp, hskip, hfail⟩ := hfault.resolve_left hfault₁
    have hgood : ¬Skips rw s addr → physical rw s addr ≠ PHYS_INVALID := fun hs hf =>
      hfault₁ ⟨hp, hs, hf⟩
    obtain ⟨hhost, habrt⟩ := afterBoth_second (s := begin addr s) hw' hgood hskip hfail
    have hgo : ¬(checked = true ∧ ¬Skips rw s addr ∧ High rw s addr) := fun hstop =>
      hfault₁ (hfirst hstop.1 ⟨hp, hstop.2⟩)
    rw [if_neg hgo]
    exact ⟨habrt, hhost⟩

/-- Without a fault of the first page, the loop that compares returns at once for an address of
4 GiB or more, and there is no abort. -/
theorem Loop.beyond (h : Loop rw true s addr n r) (hw : WholePages s.mmu)
    (hrefused : Refused rw s addr) (hfault : ¬Faults rw s addr) : r.1.mmu.abrt = 0 := by
  obtain ⟨hp, hskip, hhigh⟩ := hrefused
  have hvalid : physical rw s addr ≠ PHYS_INVALID := fun hfail => hfault ⟨hp, hskip, hfail⟩
  have hw' : WholePages (begin addr s).mmu := hw
  obtain ⟨h', halong, -⟩ := afterFirst_along (s := begin addr s) hw' fun _ => hvalid
  have hrunning : s.mmu.abrt = 0 := running_of_valid hvalid
  rw [h.state, if_pos ⟨rfl, hskip, hhigh⟩, halong]
  exact hrunning

/-! ## Writes -/

/-- A store in two pages. -/
def splitStore (s : Machine) (addr : BitVec 32) (data : List (BitVec 8)) (k : Nat)
    (r : Machine × Option (Nat → BitVec 32)) : Machine :=
  finish id (storeHalves addr data k) (translations s addr r)

/-- What is stored after a fault. -/
theorem Loop.stored (h : Loop true checked s addr (2 ^ (k + 1)) r) (hw : WholePages s.mmu)
    (hk : k ≤ 2) (hcross : Crosses addr (2 ^ (k + 1))) (hlen : data.length = 2 ^ (k + 1))
    (hfault : Faults true s addr ∨ Faults true s (lastByte addr (2 ^ (k + 1)))) :
    ((splitStore s addr data k r).stored = s.stored ↔
      checked = true ∨ (¬HalfThrough s addr k 0 ∧ ¬HalfThrough s addr k (2 ^ k))) ∧
    (splitStore s addr data k r).mmu = r.1.mmu := by
  have hn : 2 ^ (k + 1) ≤ 8 := Nat.pow_le_pow_right (by decide) (show k + 1 ≤ 3 by omega)
  have hp : paging s := hfault.elim (fun h => h.1) fun h => h.1
  have hbytes := (exists_faults hn hcross).mpr hfault
  have hrest := h.rest
  unfold splitStore
  cases hchecked : checked with
  | true =>
    subst hchecked
    obtain ⟨j, hj, hbyte⟩ := hbytes
    rw [finish_none _ _ hp (h.returns ⟨j, hj, hbyte.refused⟩)]
    refine ⟨iff_of_true ?_ (Or.inl rfl), rfl⟩
    unfold id
    rw [hrest]
    rfl
  | false =>
    subst hchecked
    obtain ⟨c, hc⟩ := h.unchecked rfl
    obtain ⟨habrt, -⟩ := h.faults hw hfault fun h => absurd h (by decide)
    rw [finish_some _ _ hp hc]
    have hs : Stopped r.1 := ⟨h.still_paging.mpr hp, Or.inl habrt⟩
    have hhalves := (@stopped_halves r.1 addr c data k hs hlen).1
    have hstores := @stores_halves r.1 addr c data k
    generalize storeHalves addr data k c r.1 = s' at hhalves hstores ⊢
    have hstored : r.1.stored = s.stored := by
      rw [hrest]
      rfl
    have hthrough : ∀ i, HalfThrough r.1 addr k i ↔ HalfThrough s addr k i := by
      intro i
      rw [hrest]
      exact Iff.rfl
    rw [hstored, hthrough, hthrough] at hhalves
    refine ⟨hhalves.trans (or_iff_right Bool.false_ne_true).symm, ?_⟩
    rw [hstores]

/-- With a fault, a store leaves all as it was exactly when the walk of the first page marks nothing
and what comes before the fault ends the store. -/
theorem Loop.nothing_iff (h : paging s → Loop true checked s addr (2 ^ (k + 1)) r)
    (hw : WholePages s.mmu) (hk : k ≤ 2) (hcross : Crosses addr (2 ^ (k + 1)))
    (hlen : data.length = 2 ^ (k + 1)) :
    ((∃ j < data.length, Faults true s (linear addr j)) ∧
      (splitStore s addr data k r).stored = s.stored ∧
      (splitStore s addr data k r).mmu.host = s.mmu.host ∧
      (splitStore s addr data k r).mmu.abrt ≠ 0) ↔
    (Faults true s addr ∨ Faults true s (lastByte addr (2 ^ (k + 1)))) ∧ Unmarked s addr ∧
      if checked = true then Refused true s addr → Faults true s addr
      else ¬HalfThrough s addr k 0 ∧ ¬HalfThrough s addr k (2 ^ k) := by
  have hn : 2 ^ (k + 1) ≤ 8 := Nat.pow_le_pow_right (by decide) (show k + 1 ≤ 3 by omega)
  rw [hlen, exists_faults hn hcross]
  refine and_congr_right fun hfault => ?_
  have hloop := h (hfault.elim (fun h => h.1) fun h => h.1)
  have hmark : Unmarked s addr ↔
      (afterFirst true addr (begin addr s)).mmu.host = s.mmu.host :=
    unmarked_iff (s := begin addr s)
  obtain ⟨hstored, hmmu⟩ := hloop.stored hw hk hcross hlen hfault
  rw [hstored, hmmu]
  cases hchecked : checked with
  | true =>
    subst hchecked
    rw [if_pos rfl]
    by_cases hfirst : Refused true s addr → Faults true s addr
    · obtain ⟨habrt, hhost⟩ := hloop.faults hw hfault fun _ => hfirst
      rw [hhost, hmark]
      exact ⟨fun hc => ⟨hc.2.1, hfirst⟩, fun hc => ⟨Or.inl rfl, hc.1, habrt⟩⟩
    · obtain ⟨hrefused, hno⟩ := Classical.not_imp.mp hfirst
      have habrt := hloop.beyond hw hrefused hno
      exact iff_of_false (fun hc => hc.2.2 habrt) fun hc => hfirst hc.2
  | false =>
    subst hchecked
    obtain ⟨habrt, hhost⟩ := hloop.faults hw hfault fun h => absurd h (by decide)
    rw [if_neg Bool.false_ne_true, or_iff_right Bool.false_ne_true, hhost, hmark]
    exact ⟨fun hc => ⟨hc.2.1, hc.1⟩, fun hc => ⟨hc.2, hc.1, habrt⟩⟩

/-- With no page refused, each byte is stored where its own page is exactly when no half is cut and
the entry of the second page is kept. -/
theorem Loop.all_iff (h : paging s → Loop true checked s addr (2 ^ (k + 1)) r) (hk : k ≤ 2)
    (hcross : Crosses addr (2 ^ (k + 1))) (hlen : data.length = 2 ^ (k + 1)) :
    ((∀ j < data.length, ¬Refused true s (linear addr j)) ∧
      Puts s addr data (splitStore s addr data k r)) ↔
    ¬Refused true s addr ∧ ¬Refused true s (lastByte addr (2 ^ (k + 1))) ∧ NotCut s addr k ∧
      Kept s addr k := by
  have hn : 2 ^ (k + 1) ≤ 8 := Nat.pow_le_pow_right (by decide) (show k + 1 ≤ 3 by omega)
  have hpages := @forall_taken s true addr _ hn hcross
  rw [hlen, ← and_assoc, ← hpages]
  refine and_congr_right fun hno => ?_
  obtain ⟨a64, b, hfinish, halong, hright, hskipped⟩ :=
    finish_taken id (storeHalves addr data k) h hno
  obtain ⟨hfirst, hlast⟩ := hpages.mp hno
  unfold splitStore
  rw [hfinish]
  exact Done.puts_iff ⟨halong, hright, hskipped⟩ hk hcross hlen hfirst hlast

theorem splitStore_iff (h : paging s → Loop true checked s addr (2 ^ (k + 1)) r)
    (hw : WholePages s.mmu) (hk : k ≤ 2) (hcross : Crosses addr (2 ^ (k + 1)))
    (hlen : data.length = 2 ^ (k + 1)) :
    AllOrNothing s addr data (splitStore s addr data k r) ↔ StoresWell checked s addr k :=
  or_congr (Loop.nothing_iff h hw hk hcross hlen) (Loop.all_iff h hk hcross hlen)

/-! ## Words, longs and quads -/

theorem take_bytes {w : Nat} (n : Nat) (val : BitVec w) :
    ((bytes n val).drop 0).take n = bytes n val := by
  rw [List.drop_zero]
  exact List.take_of_length_le (bytes_length n val).le

theorem two_bytes_eq (val : BitVec 16) (a64 : Nat → BitVec 32) :
    storeHalves addr (bytes 2 val) 0 a64 s =
      writemembl_no_mmut (addr + 1) (a64 1) ((val >>> 8).setWidth 8)
        (writemembl_no_mmut addr (a64 0) (val.setWidth 8) s) := by
  obtain ⟨hlow, hhigh⟩ := take_halves (m := 1) (le_refl 8) (take_bytes 2 val)
  have hfirst := @writemembl_no_mmut_eq s addr 0 a64 _ _ hlow
  have hsecond := fun s => @writemembl_no_mmut_eq s addr (0 + 1) a64 _ _ hhigh
  rw [linear_zero] at hfirst
  unfold storeHalves
  rw [← hfirst]
  exact (hsecond _).symm

theorem two_words_eq (val : BitVec 32) (a64 : Nat → BitVec 32) :
    storeHalves addr (bytes 4 val) 1 a64 s =
      writememwl_no_mmut (addr + 2) (behind a64 2) ((val >>> 16).setWidth 16)
        (writememwl_no_mmut addr a64 (val.setWidth 16) s) := by
  obtain ⟨hlow, hhigh⟩ := take_halves (m := 2) (le_refl 16) (take_bytes 4 val)
  have hfirst := @writememwl_no_mmut_eq s addr 0 a64 _ _ hlow
  have hsecond := fun s => @writememwl_no_mmut_eq s addr (0 + 2) a64 _ _ hhigh
  rw [linear_zero, behind_zero] at hfirst
  unfold storeHalves
  rw [← hfirst]
  exact (hsecond _).symm

theorem two_longs_eq (val : BitVec 64) (a64 : Nat → BitVec 32) :
    storeHalves addr (bytes 8 val) 2 a64 s =
      writememll_no_mmut (addr + 4) (behind a64 4) ((val >>> 32).setWidth 32)
        (writememll_no_mmut addr a64 (val.setWidth 32) s) := by
  obtain ⟨hlow, hhigh⟩ := take_halves (m := 4) (le_refl 32) (take_bytes 8 val)
  have hfirst := @writememll_no_mmut_eq s addr 0 a64 _ _ hlow
  have hsecond := fun s => @writememll_no_mmut_eq s addr (0 + 4) a64 _ _ hhigh
  rw [linear_zero, behind_zero] at hfirst
  unfold storeHalves
  rw [← hfirst]
  exact (hsecond _).symm

theorem writememwl_split (val : BitVec 16) (h : Crosses addr 2) : writememwl addr val s =
    splitStore s addr (bytes 2 val) 0
      (translateEach true addr 2 0 (linear addr) (begin addr s)) := by
  unfold writememwl splitStore translations finish
  dsimp only
  rw [if_pos (word_splits_iff.mpr h)]
  simp only [two_bytes_eq]
  rfl

theorem writememll_split (val : BitVec 32) (h : Crosses addr 4) : writememll addr val s =
    splitStore s addr (bytes 4 val) 1
      (translateBytes true true addr 4 4 0 0 (linear addr) (begin addr s)) := by
  unfold writememll splitStore translations finish
  dsimp only
  rw [if_pos (long_splits_iff.mpr h)]
  simp only [two_words_eq]
  rfl

theorem writememql_split (val : BitVec 64) (h : Crosses addr 8) : writememql addr val s =
    splitStore s addr (bytes 8 val) 2
      (translateBytes true false addr 8 8 0 0 (linear addr) (begin addr s)) := by
  unfold writememql splitStore translations finish
  dsimp only
  rw [if_pos (quad_splits_iff.mpr h)]
  simp only [two_longs_eq]
  rfl

theorem word_iff (hw : WholePages s.mmu) (val : BitVec 16) (h : Crosses addr 2) :
    AllOrNothing s addr (bytes 2 val) (writememwl addr val s) ↔ StoresWell true s addr 0 := by
  rw [writememwl_split val h]
  exact splitStore_iff (fun _ => eachLoop true addr hw) hw (by decide) h (bytes_length 2 val)

theorem long_iff (hw : WholePages s.mmu) (val : BitVec 32) (h : Crosses addr 4) :
    AllOrNothing s addr (bytes 4 val) (writememll addr val s) ↔ StoresWell true s addr 1 := by
  rw [writememll_split val h]
  exact splitStore_iff (fun _ => bytesLoop true true addr hw (by decide) h) hw (by decide) h
    (bytes_length 4 val)

theorem quad_iff (hw : WholePages s.mmu) (val : BitVec 64) (h : Crosses addr 8) :
    AllOrNothing s addr (bytes 8 val) (writememql addr val s) ↔ StoresWell false s addr 2 := by
  rw [writememql_split val h]
  exact splitStore_iff (fun _ => bytesLoop true false addr hw (by decide) h) hw (by decide) h
    (bytes_length 8 val)

/-! ## Reads -/

theorem readReady_of_along (h : Along (begin addr s) s') (hcalm : paging s → s.mmu.abrt = 0) :
    ReadReady (begin addr s) s' := by
  obtain ⟨h', rfl, -⟩ := h
  refine ⟨rfl, rfl, rfl, rfl, Iff.rfl, ?_, fun _ _ => Or.inl rfl⟩
  rintro ⟨hp, habrt | hhigh⟩
  · exact habrt (hcalm hp)
  · exact absurd hhigh Bool.false_ne_true

/-- Every read that is split does the same with its translations. -/
theorem splitRead_iff {w : Nat} (val : BitVec w)
    {go : (Nat → BitVec 32) → Machine → Machine × List Source}
    (h : Loop false true s addr n r) (hw : WholePages s.mmu) (hn : n ≤ 8)
    (hcross : Crosses addr n)
    (hgo : ∀ a64 s', ReadReady (begin addr s) s' → Right false (begin addr s) addr n a64 →
      Gets (begin addr s) addr n (go a64 s')) :
    ReadsOrAborts s addr n
      (finish (fun s => (s, nothing n val)) go (translations s addr r)) ↔ ReadsWell s addr n := by
  unfold ReadsOrAborts ReadsWell
  rw [exists_faults hn hcross, forall_taken hn hcross]
  by_cases hrefused : Refused false s addr ∨ Refused false s (lastByte addr n)
  · -- the value stands for none, and only a fault leaves an abort
    have hp : paging s := hrefused.elim (fun h => h.1) fun h => h.1
    have hbytes := (exists_byte (P := Refused false s) hn hcross fun _ _ => refused_same).mpr
      hrefused
    rw [finish_none _ _ hp (h.returns hbytes),
      or_iff_left fun hc => hrefused.elim hc.1.1 hc.1.2]
    by_cases hfirst : Refused false s addr → Faults false s addr
    · have habrt := fun hfault => (h.faults hw hfault fun _ => hfirst).1
      constructor
      · rintro ⟨hfault, -⟩
        by_cases hfault₁ : Faults false s addr
        · exact Or.inl hfault₁
        · exact Or.inr ⟨fun hr => hfault₁ (hfirst hr), Or.inl (hfault.resolve_left hfault₁)⟩
      · rintro (hfault | ⟨hno, hfault | hno'⟩)
        · exact ⟨Or.inl hfault, habrt (Or.inl hfault)⟩
        · exact ⟨Or.inr hfault, habrt (Or.inr hfault)⟩
        · exact absurd hrefused (not_or.mpr ⟨hno, hno'⟩)
    · obtain ⟨hrefused₁, hno⟩ := Classical.not_imp.mp hfirst
      refine iff_of_false (fun hc => hc.2 (h.beyond hw hrefused₁ hno)) ?_
      rintro (hfault | ⟨hno', -⟩)
      · exact hno hfault
      · exact hno' hrefused₁
  · obtain ⟨hno, hno'⟩ := not_or.mp hrefused
    refine iff_of_true (Or.inr ⟨⟨hno, hno'⟩, ?_⟩) (Or.inr ⟨hno, Or.inr hno'⟩)
    obtain ⟨a64, b, hfinish, halong, hright, -⟩ :=
      finish_taken (fun s => (s, nothing n val)) go (fun _ => h)
        ((forall_taken hn hcross).mpr ⟨hno, hno'⟩)
    have hcalm : paging s → s.mmu.abrt = 0 := fun hp =>
      running_of_valid (not_high_valid fun hhigh => hno ⟨hp, skips_read, hhigh⟩)
    rw [hfinish]
    exact (hgo a64 b (readReady_of_along halong hcalm) hright).reads

theorem readmemwl_iff (hw : WholePages s.mmu) (h : Crosses addr 2) :
    ReadsOrAborts s addr 2 (readmemwl addr s) ↔ ReadsWell s addr 2 := by
  have hread := splitRead_iff (0xffff : BitVec 16) (eachLoop false addr hw) hw (by decide) h
    fun a64 s' hready hright => two_bytes_gets hready hright
  unfold readmemwl
  dsimp only
  rw [if_pos (word_splits_iff.mpr h)]
  exact hread

theorem readmemll_iff (hw : WholePages s.mmu) (h : Crosses addr 4) :
    ReadsOrAborts s addr 4 (readmemll addr s) ↔ ReadsWell s addr 4 := by
  have hread := splitRead_iff (0xffff : BitVec 32) (bytesLoop false true addr hw (by decide) h) hw
    (by decide) h fun a64 s' hready hright => two_words_gets hready hright
  unfold readmemll
  dsimp only
  rw [if_pos (long_splits_iff.mpr h)]
  exact hread

theorem readmemql_iff (hw : WholePages s.mmu) (h : Crosses addr 8) :
    ReadsOrAborts s addr 8 (readmemql addr s) ↔ ReadsWell s addr 8 := by
  have hread := splitRead_iff (0xffff : BitVec 64) (bytesLoop false true addr hw (by decide) h) hw
    (by decide) h fun a64 s' hready hright => two_longs_gets hready hright
  unfold readmemql
  dsimp only
  rw [if_pos (quad_splits_iff.mpr h)]
  exact hread

/-- An access in two pages is all or nothing exactly under its condition: a word and a long that is
stored, a quad, which has a loop that does not compare, and a read of any of the sizes. -/
theorem a_split_access_is_all_or_nothing_iff (s : Machine) (hw : WholePages s.mmu)
    (addr : BitVec 32) :
    (∀ val, Crosses addr 2 →
      (AllOrNothing s addr (bytes 2 val) (writememwl addr val s) ↔ StoresWell true s addr 0)) ∧
    (∀ val, Crosses addr 4 →
      (AllOrNothing s addr (bytes 4 val) (writememll addr val s) ↔ StoresWell true s addr 1)) ∧
    (∀ val, Crosses addr 8 →
      (AllOrNothing s addr (bytes 8 val) (writememql addr val s) ↔ StoresWell false s addr 2)) ∧
    (Crosses addr 2 → (ReadsOrAborts s addr 2 (readmemwl addr s) ↔ ReadsWell s addr 2)) ∧
    (Crosses addr 4 → (ReadsOrAborts s addr 4 (readmemll addr s) ↔ ReadsWell s addr 4)) ∧
    (Crosses addr 8 → (ReadsOrAborts s addr 8 (readmemql addr s) ↔ ReadsWell s addr 8)) :=
  ⟨fun val h => word_iff hw val h, fun val h => long_iff hw val h, fun val h => quad_iff hw val h,
    readmemwl_iff hw, readmemll_iff hw, readmemql_iff hw⟩

end

/-! ## Small machines -/

/-- Two pages, at 0x3000 and 0x5000, for the linear addresses 0 and 0x1000. There is none for
0x2000. -/
def twoPages : Machine where
  mmu := { readOnlyPage true with
    host := fun i => if i = 1024 then 0x2003 else if i = 2048 then 0x3003
      else if i = 2049 then 0x5003 else 0 }
  lookups := plainPages
  rammask := 0xffffffff
  high_page := false
  mem_logical_addr := 0
  is_compare := false
  cpu_use_exec := true
  ram := 0x100000
  hasWrite _ := true
  ramReads _ := true
  ramWrites _ := true
  stored := []
  offset_kept := by decide

theorem twoPages_whole : WholePages twoPages.mmu := by
  refine ⟨fun page b h => ?_, rfl⟩
  have hb : page * 1024 = b := Option.some.inj h
  omega

example : (writememwl 0xfff 0x1234 twoPages).stored =
    [(.host 0x103fff, 0x34), (.host 0x105000, 0x12)] := by decide +kernel

/-- A word goes to both pages, another one faults before anything is stored, a quad goes to both,
and a long is read from both. -/
theorem two_pages_take_a_word :
    AllOrNothing twoPages 0xfff (bytes 2 (0x1234 : BitVec 16)) (writememwl 0xfff 0x1234 twoPages) ∧
    AllOrNothing twoPages 0x2fff (bytes 2 (0x1234 : BitVec 16))
      (writememwl 0x2fff 0x1234 twoPages) ∧
    AllOrNothing twoPages 0xffa (bytes 8 (0x1122334455667788 : BitVec 64))
      (writememql 0xffa 0x1122334455667788 twoPages) ∧
    ReadsOrAborts twoPages 0xffd 4 (readmemll 0xffd twoPages) := by
  have hall := a_split_access_is_all_or_nothing_iff twoPages twoPages_whole
  have hnone : ∀ x, tracked twoPages x = none := fun _ => rfl
  have hkept : ∀ addr k, Kept twoPages addr k := fun addr k h => absurd (hnone _) h.1
  have hcalm : ∀ addr k, NotCut twoPages addr k := fun _ _ _ h => absurd rfl h
  refine ⟨((hall 0xfff).1 0x1234 (by decide)).mpr (Or.inr ?_),
    ((hall 0x2fff).1 0x1234 (by decide)).mpr (Or.inl ?_),
    ((hall 0xffa).2.2.1 _ (by decide)).mpr (Or.inr ?_),
    ((hall 0xffd).2.2.2.2.1 (by decide)).mpr (Or.inr ?_)⟩
  · exact ⟨by decide +kernel, by decide +kernel, hcalm _ _, hkept _ _⟩
  · have hfault : Faults true twoPages 0x2fff := by decide +kernel
    refine ⟨Or.inl hfault, Or.inr (failing_walk hfault.2.2).1, ?_⟩
    rw [if_pos rfl]
    exact fun _ => hfault
  · exact ⟨by decide +kernel, by decide +kernel, hcalm _ _, hkept _ _⟩
  · exact ⟨by decide +kernel, Or.inr (by decide +kernel)⟩

/-- The page of 0x1000 has its entry in `page_lookup`, since there is code in the page of 0x5000,
and the ring has come to the slot with its number. -/
def cameRound : Machine :=
  { twoPages with lookups := { plainPages with
      page_lookup := fun page => if page = 1 then some 5 else none
      writelookup := fun c => some (BitVec.ofNat 20 (c.val + 1))
      pages := fun page => if page = 5 then ⟨1, 0⟩ else ⟨0, 0⟩ } }

/-- The page of 0x1000 has its window. -/
def lookedUp : Machine :=
  { twoPages with lookups := { plainPages with
      writelookup2 := fun page => if page = 1 then 0x104000 else LOOKUP_INV } }

/-- The second byte of a word goes to 0x1000, where nothing translates to, and not to 0x5000. A quad
goes on after the fault of its second page, and its first half is stored. -/
theorem a_split_store_goes_wrong :
    ((writememwl 0xfff 0x1234 cameRound).stored =
        [(.host 0x103fff, 0x34), (.host 0x101000, 0x12)] ∧
      ¬AllOrNothing cameRound 0xfff (bytes 2 (0x1234 : BitVec 16))
        (writememwl 0xfff 0x1234 cameRound)) ∧
    (writememql 0x1ff9 0x1122334455667788 lookedUp).stored =
        [(.host 0x105ff9, 0x88), (.host 0x105ffa, 0x77), (.host 0x105ffb, 0x66),
          (.host 0x105ffc, 0x55)] ∧
      (writememql 0x1ff9 0x1122334455667788 lookedUp).mmu.abrt ≠ 0 ∧
      ¬AllOrNothing lookedUp 0x1ff9 (bytes 8 (0x1122334455667788 : BitVec 64))
        (writememql 0x1ff9 0x1122334455667788 lookedUp) := by
  have hwhole : WholePages cameRound.mmu := twoPages_whole
  have hwhole' : WholePages lookedUp.mmu := twoPages_whole
  refine ⟨⟨by decide +kernel, fun h => ?_⟩, by decide +kernel, by decide +kernel, fun h => ?_⟩
  · rcases (word_iff hwhole 0x1234 (by decide)).mp h with ⟨hfault, -⟩ | ⟨-, -, -, hkept⟩
    · revert hfault
      decide +kernel
    · have hown := hkept (by decide +kernel) 1 (by decide) (by decide)
      have hentry : tracked cameRound (linear 0xfff 1) = some 5 := by decide +kernel
      rcases hown with ⟨page, hpage, hplace⟩ | ⟨hlive, -⟩ | ⟨hnone, -⟩
      · obtain rfl := Option.some.inj (hpage.symm.trans hentry)
        revert hplace
        decide +kernel
      · exact hlive rfl
      · rw [hentry] at hnone
        cases hnone
  · rcases (quad_iff hwhole' _ (by decide)).mp h with ⟨-, -, hthrough⟩ | ⟨-, hno, -⟩
    · rw [if_neg Bool.false_ne_true] at hthrough
      revert hthrough
      decide +kernel
    · revert hno
      decide +kernel

end blumach.mem_access
