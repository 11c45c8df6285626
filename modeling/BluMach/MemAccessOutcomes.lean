-- What a store that is split can come to, page by page: which pages fault, what the walks before a
-- fault leave, and what goes through with an abort pending.
import BluMach.MemAccessRing
import BluMach.MemAccessWalks

namespace blumach.mem_access

open bit_fields mem_lookup mmu tiling

/-- The page of the byte has to be walked, and the walk fails. -/
def Faults (rw : Bool) (s : Machine) (x : BitVec 32) : Prop :=
  paging s ∧ ¬Skips rw s x ∧ physical rw s x = PHYS_INVALID

instance (rw : Bool) (s : Machine) (x : BitVec 32) : Decidable (Faults rw s x) :=
  inferInstanceAs (Decidable (_ ∧ _ ∧ _))

/-- The page of the byte has to be walked, and the walk fails or its address does not have
32 bits. -/
def Refused (rw : Bool) (s : Machine) (x : BitVec 32) : Prop :=
  paging s ∧ ¬Skips rw s x ∧ High rw s x

instance (rw : Bool) (s : Machine) (x : BitVec 32) : Decidable (Refused rw s x) :=
  inferInstanceAs (Decidable (_ ∧ _ ∧ _))

/-- The last byte of an access. -/
def lastByte (addr : BitVec 32) (n : Nat) : BitVec 32 := linear addr (n - 1)

/-- The walk of the page, if it is walked for a write, sets no accessed or dirty bit. -/
def Unmarked (s : Machine) (x : BitVec 32) : Prop :=
  Skips true s x ∨ (mmutranslatereal x true s.mmu).1.host = s.mmu.host

section

variable {s s' : Machine} {rw : Bool} {x y addr : BitVec 32} {n : Nat}

/-! ## Pages -/

theorem physical_same (h : pageOf x = pageOf y) :
    (physical rw s x = PHYS_INVALID ↔ physical rw s y = PHYS_INVALID) ∧
      (High rw s x ↔ High rw s y) := by
  have hdiv := pageOf_eq_iff.mp h
  by_cases hx : physical rw s x = PHYS_INVALID
  · have hy : physical rw s y = PHYS_INVALID := by
      by_contra hy
      exact (physical_same_page hdiv.symm hy).2 hx
    unfold High
    rw [hx, hy]
    exact ⟨Iff.rfl, Iff.rfl⟩
  · obtain ⟨hsame, hy⟩ := physical_same_page hdiv hx
    have hvalue := withOffset_toNat (physical rw s x) y
    rw [← hsame] at hvalue
    have hmax : (0xffffffff : BitVec 64).toNat = 2 ^ 32 - 1 := rfl
    refine ⟨iff_of_false hx hy, ?_⟩
    unfold High
    rw [BitVec.lt_def, BitVec.lt_def]
    omega

theorem faults_same (h : pageOf x = pageOf y) : Faults rw s x ↔ Faults rw s y := by
  unfold Faults
  rw [skips_same h, (physical_same h).1]

theorem refused_same (h : pageOf x = pageOf y) : Refused rw s x ↔ Refused rw s y := by
  unfold Refused
  rw [skips_same h, (physical_same h).2]

theorem Faults.refused (h : Faults rw s x) : Refused rw s x := by
  obtain ⟨hp, hskip, hfail⟩ := h
  refine ⟨hp, hskip, ?_⟩
  unfold High
  rw [hfail]
  decide

theorem exists_faults (hn : n ≤ 8) (h : Crosses addr n) :
    (∃ j < n, Faults rw s (linear addr j)) ↔
      Faults rw s addr ∨ Faults rw s (lastByte addr n) :=
  exists_byte hn h fun _ _ => faults_same

theorem forall_taken (hn : n ≤ 8) (h : Crosses addr n) :
    (∀ j < n, ¬Refused rw s (linear addr j)) ↔
      ¬Refused rw s addr ∧ ¬Refused rw s (lastByte addr n) :=
  forall_bytes (P := fun x => ¬Refused rw s x) hn h fun _ _ hpage =>
    not_congr (refused_same hpage)

/-! ## Walks -/

/-- A walk that fails changes no table. -/
theorem failing_walk (h : physical rw s x = PHYS_INVALID) :
    (mmutranslatereal x rw s.mmu).1.host = s.mmu.host ∧
      (mmutranslatereal x rw s.mmu).1.abrt ≠ 0 := by
  unfold physical at h
  by_cases habrt : s.mmu.abrt = 0
  · rw [real_walk habrt] at h ⊢
    cases hwalk : walk x rw s.mmu with
    | fault p =>
      have habrt : ABRT_PF ≠ 0 := by decide
      exact ⟨rfl, habrt⟩
    | page address upper leaf =>
      rw [hwalk] at h
      have hlt := walk_lt hwalk
      have hvalue : (BitVec.ofNat 64 address).toNat < 2 ^ 40 := by
        rw [BitVec.toNat_ofNat]
        omega
      exact absurd h (ne_invalid_of_lt hvalue)
  · rw [real_stopped x rw habrt]
    exact ⟨rfl, habrt⟩

/-- No walk changes `cr0`. -/
theorem walk_cr0 (x : BitVec 32) (rw : Bool) (m : MmuState) :
    (mmutranslatereal x rw m).1.cr0 = m.cr0 := by
  by_cases habrt : m.abrt = 0
  · rw [real_walk habrt]
    cases walk x rw m with
    | fault p => rfl
    | page address upper leaf => rfl
  · rw [real_stopped x rw habrt]

theorem afterFirst_skips (h : Skips rw s x) : afterFirst rw x s = s := if_pos h

theorem afterFirst_walk (h : ¬Skips rw s x) :
    afterFirst rw x s = { s with mmu := (mmutranslatereal x rw s.mmu).1 } := by
  unfold afterFirst
  rw [if_neg h, mmutranslate_eq]

theorem afterFirst_rest :
    afterFirst rw x s = { s with mmu := (afterFirst rw x s).mmu } := by
  by_cases h : Skips rw s x
  · rw [afterFirst_skips h]
  · rw [afterFirst_walk h]

theorem afterFirst_paging : paging (afterFirst rw x s) ↔ paging s := by
  by_cases h : Skips rw s x
  · rw [afterFirst_skips h]
  · rw [afterFirst_walk h]
    unfold paging
    rw [walk_cr0]

theorem afterBoth_rest :
    afterBoth rw addr n s = { s with mmu := (afterBoth rw addr n s).mmu } := by
  unfold afterBoth
  have hfirst := @afterFirst_rest s rw addr
  generalize afterFirst rw addr s = f at hfirst ⊢
  have hsecond := @afterFirst_rest f rw (linear addr (n - 1))
  generalize afterFirst rw (linear addr (n - 1)) f = g at hsecond ⊢
  rw [hsecond, hfirst]

theorem afterFirst_along (hw : WholePages s.mmu)
    (h : ¬Skips rw s x → physical rw s x ≠ PHYS_INVALID) : Along s (afterFirst rw x s) := by
  unfold afterFirst
  by_cases hskip : Skips rw s x
  · rw [if_pos hskip]
    exact Along.refl s
  · rw [if_neg hskip]
    exact (translate_along rw x (Along.refl s) hw).2.2 (h hskip)

theorem afterFirst_fails (hskip : ¬Skips rw s x) (h : physical rw s x = PHYS_INVALID) :
    (afterFirst rw x s).mmu.host = s.mmu.host ∧ (afterFirst rw x s).mmu.abrt ≠ 0 := by
  rw [afterFirst_walk hskip]
  exact failing_walk h

theorem unmarked_iff : Unmarked s x ↔ (afterFirst true x s).mmu.host = s.mmu.host := by
  unfold Unmarked
  by_cases hskip : Skips true s x
  · rw [afterFirst_skips hskip]
    exact iff_of_true (Or.inl hskip) rfl
  · rw [afterFirst_walk hskip, or_iff_right hskip]

/-- When the first page faults, the second one is not walked. -/
theorem afterBoth_first (hskip : ¬Skips rw s addr) (h : physical rw s addr = PHYS_INVALID) :
    (afterBoth rw addr n s).mmu.host = s.mmu.host ∧ (afterBoth rw addr n s).mmu.abrt ≠ 0 := by
  obtain ⟨hhost, habrt⟩ := afterFirst_fails hskip h
  unfold afterBoth
  generalize afterFirst rw addr s = f at hhost habrt ⊢
  by_cases hskip' : Skips rw f (linear addr (n - 1))
  · rw [afterFirst_skips hskip']
    exact ⟨hhost, habrt⟩
  · rw [afterFirst_walk hskip', real_stopped _ _ habrt]
    exact ⟨hhost, habrt⟩

/-- When the second page faults, what there is was left by the walk of the first. -/
theorem afterBoth_second (hw : WholePages s.mmu)
    (hfirst : ¬Skips rw s addr → physical rw s addr ≠ PHYS_INVALID)
    (hskip : ¬Skips rw s (lastByte addr n))
    (h : physical rw s (lastByte addr n) = PHYS_INVALID) :
    (afterBoth rw addr n s).mmu.host = (afterFirst rw addr s).mmu.host ∧
      (afterBoth rw addr n s).mmu.abrt ≠ 0 := by
  have halong := afterFirst_along hw hfirst
  have hskip' : ¬Skips rw (afterFirst rw addr s) (lastByte addr n) := fun hs =>
    hskip (halong.skips.mp hs)
  exact afterFirst_fails hskip' ((halong.physical hw).trans h)

/-! ## With an abort pending -/

section

variable {a64 : Nat → BitVec 32} {data : List (BitVec 8)} {i k : Nat} {p : Extent}

/-- The bytes of a piece go through a lookup of their page. -/
def Through (s : Machine) (x : BitVec 32) (m : Nat) : Prop :=
  Windowed s.lookups x m ∨ tracked s x ≠ none

instance (s : Machine) (x : BitVec 32) (m : Nat) : Decidable (Through s x m) :=
  inferInstanceAs (Decidable (_ ∨ _))

theorem stopped_piece (hs : Stopped s) (hlen : p.1 + p.2 ≤ data.length) :
    (storePiece addr a64 data s p).lookups = s.lookups ∧
    (Through s (linear addr p.1) p.2 →
      (storePiece addr a64 data s p).stored.length = s.stored.length + p.2) ∧
    (¬Through s (linear addr p.1) p.2 → (storePiece addr a64 data s p).stored = s.stored) := by
  have hpart := length_part hlen
  have hcount : ∀ place, (s.stored ++ (hostPlaces place p.2).zip
      ((data.drop p.1).take p.2)).length = s.stored.length + p.2 := by
    intro place
    unfold hostPlaces
    rw [List.length_append, List.length_zip, List.length_map, List.length_range, hpart,
      Nat.min_self]
  have hat : tracked { s with mem_logical_addr := linear addr p.1 } (linear addr p.1) =
    tracked s (linear addr p.1) := rfl
  have hs' : Stopped { s with mem_logical_addr := linear addr p.1 } := hs
  unfold storePiece
  dsimp only
  by_cases hwindow : Windowed s.lookups (linear addr p.1) p.2
  · rw [if_pos hwindow]
    unfold writeWindow
    rw [hpart]
    exact ⟨rfl, fun _ => hcount _, fun h => absurd (Or.inl hwindow) h⟩
  rw [if_neg hwindow]
  cases htracked : tracked s (linear addr p.1) with
  | some page =>
    rw [writeWhole_tracked (hat.trans htracked), hpart]
    refine ⟨rfl, fun _ => hcount _, fun h => absurd (Or.inr ?_) h⟩
    rw [htracked]
    exact nofun
  | none =>
    rw [writeWhole_stopped (hat.trans htracked) hs']
    exact ⟨rfl, fun h => absurd htracked (h.resolve_left hwindow), fun _ => rfl⟩

/-- A half that lies in one page goes through a lookup. -/
def HalfThrough (s : Machine) (addr : BitVec 32) (k i : Nat) : Prop :=
  ¬Crosses (linear addr i) (2 ^ k) ∧ Through s (linear addr i) (2 ^ k)

instance (s : Machine) (addr : BitVec 32) (k i : Nat) : Decidable (HalfThrough s addr k i) :=
  inferInstanceAs (Decidable (_ ∧ _))

/-- A half that lies in two pages is not stored, another one only through a lookup. -/
theorem stopped_half (hs : Stopped s) (hlen : i + 2 ^ k ≤ data.length) :
    (storeSized addr a64 data k i s).lookups = s.lookups ∧
    (HalfThrough s addr k i →
      (storeSized addr a64 data k i s).stored.length = s.stored.length + 2 ^ k) ∧
    (¬HalfThrough s addr k i → (storeSized addr a64 data k i s).stored = s.stored) := by
  by_cases hcross : Crosses (linear addr i) (2 ^ k)
  · rw [storeSized_stopped hcross hs]
    exact ⟨rfl, fun h => absurd hcross h.1, fun _ => rfl⟩
  · rw [storeSized_whole hcross]
    have hspec := @stopped_piece s addr a64 data (i, 2 ^ k) hs hlen
    exact ⟨hspec.1, fun h => hspec.2.1 h.2, fun h => hspec.2.2 fun ht => h ⟨hcross, ht⟩⟩

theorem stores_sized (k i : Nat) : Stores s (storeSized addr a64 data k i s) := by
  induction k generalizing i s with
  | zero => exact stores_piece _
  | succ k ih =>
    by_cases hcross : Crosses (linear addr i) (2 ^ (k + 1))
    · have hat : Stores s { s with mem_logical_addr := linear addr i } := rfl
      rw [storeSized_cross hcross]
      by_cases hs : Stopped { s with mem_logical_addr := linear addr i }
      · rw [if_pos hs]
        exact hat
      · rw [if_neg hs]
        exact (hat.trans (ih i)).trans (ih _)
    · rw [storeSized_whole hcross]
      exact stores_piece _

/-- The two halves of the data, as each store in two pages has them. -/
def storeHalves (addr : BitVec 32) (data : List (BitVec 8)) (k : Nat) (a64 : Nat → BitVec 32)
    (s : Machine) : Machine :=
  storeSized addr a64 data k (2 ^ k) (storeSized addr a64 data k 0 s)

theorem stores_halves (k : Nat) : Stores s (storeHalves addr data k a64 s) :=
  (stores_sized k 0).trans (stores_sized k _)

/-- What is stored with an abort pending. -/
theorem stopped_halves (hs : Stopped s) (hlen : data.length = 2 ^ (k + 1)) :
    ((storeHalves addr data k a64 s).stored = s.stored ↔
      ¬HalfThrough s addr k 0 ∧ ¬HalfThrough s addr k (2 ^ k)) ∧
    (Crosses addr (2 ^ k) ∨ Crosses (linear addr (2 ^ k)) (2 ^ k) →
      (storeHalves addr data k a64 s).stored.length < s.stored.length + 2 ^ (k + 1)) := by
  have hpow := Nat.pow_succ 2 k
  have hpos := Nat.two_pow_pos k
  have hfirst := @stopped_half s addr a64 data 0 k hs (by omega)
  have hstores := @stores_sized s addr a64 data k 0
  unfold storeHalves
  generalize storeSized addr a64 data k 0 s = f at hfirst hstores ⊢
  obtain ⟨hlookups, hthrough, hnot⟩ := hfirst
  have hsecond := @stopped_half f addr a64 data (2 ^ k) k (hstores.stopped.mpr hs) (by omega)
  have hsame : HalfThrough f addr k (2 ^ k) ↔ HalfThrough s addr k (2 ^ k) := by
    unfold HalfThrough Through tracked
    rw [hlookups, hstores]
  rw [hsame] at hsecond
  obtain ⟨-, hthrough', hnot'⟩ := hsecond
  generalize storeSized addr a64 data k (2 ^ k) f = g at hthrough' hnot' ⊢
  have hcount : ∀ {l l' : List (Place × BitVec 8)}, l = l' → l.length = l'.length := congrArg _
  by_cases h0 : HalfThrough s addr k 0
  · have hlong := hthrough h0
    by_cases h1 : HalfThrough s addr k (2 ^ k)
    · have hlong' := hthrough' h1
      refine ⟨iff_of_false (fun h => ?_) fun h => h.1 h0, fun hcross => ?_⟩
      · have := hcount h
        omega
      · rw [← linear_zero addr] at hcross
        rw [linear_linear, Nat.zero_add] at hcross
        exact absurd hcross (not_or.mpr ⟨h0.1, h1.1⟩)
    · have hlong' := hcount (hnot' h1)
      refine ⟨iff_of_false (fun h => ?_) fun h => h.1 h0, fun _ => by omega⟩
      have := hcount h
      omega
  · have hshort := hcount (hnot h0)
    by_cases h1 : HalfThrough s addr k (2 ^ k)
    · have hlong' := hthrough' h1
      refine ⟨iff_of_false (fun h => ?_) fun h => h.2 h1, fun _ => by omega⟩
      have := hcount h
      omega
    · have hshort' := hcount (hnot' h1)
      exact ⟨iff_of_true ((hnot' h1).trans (hnot h0)) ⟨h0, h1⟩, fun _ => by omega⟩

end

end

end blumach.mem_access
