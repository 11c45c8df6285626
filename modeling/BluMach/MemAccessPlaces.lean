-- The places of the bytes of an access: those in one page follow one another behind whatever the
-- page goes through, be it an entry of a lookup or the mapping of its physical address.
import BluMach.MemAccessLaws
import BluMach.MemLookupLaws

namespace blumach.mem_access

open bit_fields mem_lookup mmu

/-! ## Where a byte belongs -/

/-- The physical address of a byte, by the walk of its page if paging is on. -/
def target (rw : Bool) (s : Machine) (x : BitVec 32) : BitVec 32 :=
  (if paging s then (physical rw s x).setWidth 32 else x) &&& s.rammask

/-- The place of a byte behind the mapping of its physical address. -/
def busPlace (ram : BitVec 64) (isRam : Page → Bool) (addr : BitVec 32) : Place :=
  if isRam (pageOf addr) then .host (ram + addr.setWidth 64) else .bus addr

/-! ## Addresses in one page -/

section

variable {s₀ s : Machine} {rw : Bool} {x y : BitVec 32}

theorem linear_linear (addr : BitVec 32) (m j : Nat) :
    linear (linear addr m) j = linear addr (m + j) := by
  apply BitVec.eq_of_toNat_eq
  rw [linear_toNat, linear_toNat, linear_toNat]
  omega

theorem linear_zero (addr : BitVec 32) : linear addr 0 = addr := by
  apply BitVec.eq_of_toNat_eq
  have h := addr.isLt
  rw [linear_toNat]
  omega

/-- The byte is in the page of the access. -/
theorem linear_page {addr : BitVec 32} {j : Nat} (h : addr.toNat % 2 ^ 12 + j < 2 ^ 12) :
    (linear addr j).toNat = addr.toNat + j ∧ pageOf (linear addr j) = pageOf addr := by
  have hlt := addr.isLt
  have hsum : (linear addr j).toNat = addr.toNat + j := by
    rw [linear_toNat]
    omega
  refine ⟨hsum, pageOf_eq_iff.mpr ?_⟩
  rw [hsum]
  omega

theorem tracked_page (h : pageOf x = pageOf y) : tracked s x = tracked s y := by
  unfold tracked
  rw [h]

/-- The walk of a page is good. -/
def Walkable (rw : Bool) (s : Machine) (x : BitVec 32) : Prop := paging s → ¬High rw s x

/-- A mask of whole pages keeps the offset, and takes one page to one page. -/
theorem masked_parts (s : Machine) (p : BitVec 32) :
    (p &&& s.rammask).toNat % 2 ^ 12 = p.toNat % 2 ^ 12 ∧
    (p &&& s.rammask).toNat / 2 ^ 12 = (p.toNat / 2 ^ 12) &&& (s.rammask.toNat / 2 ^ 12) := by
  have hlow := congrArg (fun m => (p &&& m).toNat) s.offset_kept
  rw [← BitVec.and_assoc, offset_toNat, offset_toNat] at hlow
  exact ⟨hlow, by rw [BitVec.toNat_and, Nat.and_div_two_pow]⟩

theorem target_same_page (hwalk : Walkable rw s₀ x)
    (h : pageOf x = pageOf y) :
    pageOf (target rw s₀ y) = pageOf (target rw s₀ x) ∧
      (target rw s₀ y).toNat % 2 ^ 12 = y.toNat % 2 ^ 12 := by
  have hdiv := pageOf_eq_iff.mp h
  obtain ⟨hoffset, hpage⟩ := masked_parts s₀
    (if paging s₀ then (physical rw s₀ y).setWidth 32 else y)
  obtain ⟨-, hpage'⟩ := masked_parts s₀ (if paging s₀ then (physical rw s₀ x).setWidth 32 else x)
  unfold target
  rw [pageOf_eq_iff, hpage, hpage', hoffset]
  by_cases hp : paging s₀
  · rw [if_pos hp, if_pos hp]
    have hlow := hwalk hp
    obtain ⟨hsame, -⟩ := physical_same_page hdiv (not_high_valid hlow)
    have hlt : (physical rw s₀ x).toNat < 2 ^ 32 := by
      unfold High at hlow
      rw [BitVec.lt_def] at hlow
      have hmax : (0xffffffff : BitVec 64).toNat = 2 ^ 32 - 1 := rfl
      omega
    have hy := withOffset_toNat (physical rw s₀ x) y
    rw [← hsame] at hy
    have hylt := y.isLt
    rw [BitVec.toNat_setWidth, BitVec.toNat_setWidth]
    have hdivs : (physical rw s₀ y).toNat % 2 ^ 32 / 2 ^ 12 =
        (physical rw s₀ x).toNat % 2 ^ 32 / 2 ^ 12 := by omega
    rw [hdivs]
    exact ⟨rfl, by omega⟩
  · rw [if_neg hp, if_neg hp, hdiv]
    exact ⟨rfl, rfl⟩

theorem target_linear (hwalk : Walkable rw s₀ x) {j : Nat}
    (h : x.toNat % 2 ^ 12 + j < 2 ^ 12) :
    target rw s₀ (linear x j) = target rw s₀ x + BitVec.ofNat 32 j := by
  obtain ⟨hsum, hpage⟩ := linear_page h
  obtain ⟨hframe, hoffset⟩ := target_same_page hwalk hpage.symm
  obtain ⟨-, hoffset'⟩ := target_same_page (y := x) hwalk rfl
  have hlt := (target rw s₀ x).isLt
  have hlt' := (target rw s₀ (linear x j)).isLt
  rw [pageOf_eq_iff] at hframe
  apply BitVec.eq_of_toNat_eq
  rw [BitVec.toNat_add, BitVec.toNat_ofNat]
  omega

/-! ## Places in one page -/

theorem setWidth_linear {j : Nat} (h : x.toNat % 2 ^ 12 + j < 2 ^ 12) :
    (linear x j).setWidth 64 = x.setWidth 64 + BitVec.ofNat 64 j := by
  have hx := x.isLt
  apply BitVec.eq_of_toNat_eq
  rw [BitVec.toNat_add, BitVec.toNat_setWidth, BitVec.toNat_setWidth, BitVec.toNat_ofNat,
    (linear_page h).1]
  omega

theorem pageCell_linear (page : Page) {j : Nat} (h : x.toNat % 2 ^ 12 + j < 2 ^ 12) :
    pageCell s page (linear x j) = pageCell s page x + BitVec.ofNat 64 j := by
  have hoffset : (linear x j &&& 0xfff).setWidth 64 =
      (x &&& 0xfff).setWidth 64 + BitVec.ofNat 64 j := by
    apply BitVec.eq_of_toNat_eq
    rw [BitVec.toNat_add, BitVec.toNat_setWidth, BitVec.toNat_setWidth, BitVec.toNat_ofNat,
      offset_toNat, offset_toNat, (linear_page h).1]
    omega
  unfold pageCell
  rw [hoffset, ← BitVec.add_assoc]

theorem setWidth_split (x : BitVec 32) :
    x.setWidth 64 = mem_lookup.frame x + (x &&& 0xfff).setWidth 64 := by
  have hx := x.isLt
  apply BitVec.eq_of_toNat_eq
  rw [BitVec.toNat_add, frame_toNat, pageOf_toNat, BitVec.toNat_setWidth, BitVec.toNat_setWidth,
    offset_toNat]
  omega

theorem frame_page (h : pageOf x = pageOf y) : mem_lookup.frame x = mem_lookup.frame y := by
  apply BitVec.eq_of_toNat_eq
  rw [frame_toNat, frame_toNat, h]

theorem offset_eq (h : x.toNat % 2 ^ 12 = y.toNat % 2 ^ 12) : x &&& 0xfff = y &&& 0xfff := by
  apply BitVec.eq_of_toNat_eq
  rw [offset_toNat, offset_toNat, h]

/-- The window of a page leads to the byte of the page that it is for. -/
theorem window_place (ram : BitVec 64) {p p' : BitVec 32} (hx : pageOf x = pageOf y)
    (hp : pageOf p' = pageOf p) (hoffset : p'.toNat % 2 ^ 12 = x.toNat % 2 ^ 12) :
    window ram p y + x.setWidth 64 = ram + p'.setWidth 64 := by
  unfold window
  rw [setWidth_split x, setWidth_split p', frame_page hx, frame_page hp, offset_eq hoffset,
    BitVec.add_assoc, ← BitVec.add_assoc (mem_lookup.frame p - mem_lookup.frame y),
    BitVec.sub_add_cancel]

theorem pageCell_place {p p' : BitVec 32} (hp : pageOf p' = pageOf p)
    (hoffset : p'.toNat % 2 ^ 12 = x.toNat % 2 ^ 12) :
    pageCell s (pageOf p) x = s.ram + p'.setWidth 64 := by
  have hbase : (pageOf p).setWidth 64 <<< 12 = mem_lookup.frame p := base_eq_frame.mpr rfl
  unfold pageCell
  rw [hbase, setWidth_split p', frame_page hp, offset_eq hoffset, BitVec.add_assoc]

/-- The places behind a mapping, byte by byte. -/
theorem busPlaces_eq {ram : BitVec 64} {isRam : Page → Bool} {p : BitVec 32} {n : Nat}
    (h : p.toNat % 2 ^ 12 + n ≤ 2 ^ 12) :
    busPlaces ram isRam p n =
      (List.range n).map fun j => busPlace ram isRam (p + BitVec.ofNat 32 j) := by
  have hbyte : ∀ j < n, pageOf (p + BitVec.ofNat 32 j) = pageOf p ∧
      (p + BitVec.ofNat 32 j).setWidth 64 = p.setWidth 64 + BitVec.ofNat 64 j := by
    intro j hj
    exact ⟨(linear_page (by omega)).2, setWidth_linear (by omega)⟩
  unfold busPlaces hostPlaces
  split_ifs with hram
  · apply List.map_congr_left
    intro j hj
    obtain ⟨hpage, hplace⟩ := hbyte j (List.mem_range.mp hj)
    unfold busPlace
    rw [hpage, if_pos hram, hplace, BitVec.add_assoc]
  · apply List.map_congr_left
    intro j hj
    obtain ⟨hpage, -⟩ := hbyte j (List.mem_range.mp hj)
    unfold busPlace
    rw [hpage, if_neg hram]

theorem hostPlaces_eq (a : BitVec 64) (n : Nat) (place : Nat → BitVec 64)
    (h : ∀ j < n, place j = a + BitVec.ofNat 64 j) :
    hostPlaces a n = (List.range n).map fun j => .host (place j) := by
  unfold hostPlaces
  apply List.map_congr_left
  intro j hj
  rw [h j (List.mem_range.mp hj)]

/-- The places of two parts, one behind the other. -/
theorem places_append {P : Nat → Place → Prop} {place place' : Nat → Place} {m k : Nat}
    (h : ∀ j < m, P j (place j)) (h' : ∀ j < k, P (m + j) (place' j)) :
    ∃ both : Nat → Place, (List.range (m + k)).map both =
      (List.range m).map place ++ (List.range k).map place' ∧ ∀ j < m + k, P j (both j) := by
  refine ⟨fun j => if j < m then place j else place' (j - m), ?_, fun j hj => ?_⟩
  · rw [List.range_add, List.map_append, List.map_map]
    congr 1
    · apply List.map_congr_left
      intro j hj
      rw [if_pos (List.mem_range.mp hj)]
    · apply List.map_congr_left
      intro j _
      have hno : ¬m + j < m := by omega
      rw [Function.comp_apply, if_neg hno, Nat.add_sub_cancel_left]
  · dsimp only
    split_ifs with hlt
    · exact h j hlt
    · have hj' := h' (j - m) (by omega)
      rw [Nat.add_sub_cancel' (by omega)] at hj'
      exact hj'

end

/-! ## Translated bytes -/

/-- `addr64a` has what the walks gave, for each byte that is walked. -/
def Right (rw : Bool) (s₀ : Machine) (y : BitVec 32) (k : Nat) (a64 : Nat → BitVec 32) : Prop :=
  ∀ j < k, ¬Skips rw s₀ (linear y j) → Walkable rw s₀ (linear y j) ∧
    (paging s₀ → a64 j = (physical rw s₀ (linear y j)).setWidth 32)

section

variable {s₀ s : Machine} {rw : Bool} {x y : BitVec 32} {m k : Nat} {a64 : Nat → BitVec 32}

theorem skips_write : Skips true s x ↔ tracked s x ≠ none := by
  unfold Skips
  rw [and_iff_right rfl, Option.isSome_iff_ne_none]

theorem skips_read : ¬Skips false s x := by
  intro h
  exact absurd h.1 (by decide)

/-- The bytes behind the first `m` of an access. -/
theorem Right.behind (h : Right rw s₀ y (m + k) a64) :
    Right rw s₀ (linear y m) k (mem_access.behind a64 m) := by
  intro j hj hskip
  rw [linear_linear] at hskip ⊢
  exact h (m + j) (by omega) hskip

theorem Right.mono (h : Right rw s₀ y k a64) (hm : m ≤ k) : Right rw s₀ y m a64 :=
  fun j hj hskip => h j (by omega) hskip

/-- The first byte of an access goes to where its page is. -/
theorem Right.first (h : Right rw s₀ y 1 a64) (hskip : ¬Skips rw s₀ y) :
    Walkable rw s₀ y ∧ (if paging s₀ then a64 0 else y) &&& s₀.rammask = target rw s₀ y := by
  have hfirst := h 0 (by omega)
  rw [linear_zero] at hfirst
  obtain ⟨hwalk, haddress⟩ := hfirst hskip
  refine ⟨hwalk, ?_⟩
  unfold target
  by_cases hp : paging s₀
  · rw [if_pos hp, if_pos hp, haddress hp]
  · rw [if_neg hp, if_neg hp]

/-- What a loop that came to its end leaves in `addr64a`. -/
theorem Translated.right {addr : BitVec 32} {n : Nat} {b : Nat → BitVec 32}
    (h : Translated rw s₀ addr n 0 a64 b s) : Right rw s₀ addr n b := by
  intro j hj hskip
  obtain ⟨hlow, haddress⟩ := h.here j (by omega) hj hskip
  exact ⟨fun _ => hlow, fun _ => haddress⟩

/-- Without paging nothing has to be translated. -/
theorem Right.of_no_paging (h : ¬paging s₀) : Right rw s₀ y k a64 :=
  fun _ _ _ => ⟨fun hp => absurd hp h, fun hp => absurd hp h⟩

end

/-! ## Bytes of a value -/

section

variable {y : BitVec 32}

theorem bytes_length {w : Nat} (n : Nat) (val : BitVec w) : (bytes n val).length = n := by
  unfold bytes
  rw [List.length_map, List.length_range]

theorem bytes_one (val : BitVec 8) : bytes 1 val = [val] := by
  unfold bytes
  simp

/-- A value is its low part and its high part. -/
theorem bytes_append {w w₁ w₂ : Nat} (val : BitVec w) {m k : Nat} (h₁ : 8 * m ≤ w₁)
    (h₂ : 8 * k ≤ w₂) : bytes (m + k) val =
      bytes m (val.setWidth w₁) ++ bytes k ((val >>> (8 * m)).setWidth w₂) := by
  unfold bytes
  rw [List.range_add, List.map_append, List.map_map]
  congr 1
  · apply List.map_congr_left
    intro j hj
    have hlt := List.mem_range.mp hj
    apply BitVec.eq_of_getLsbD_eq
    intro i hi
    have hin : 8 * j + i < w₁ := by omega
    simp [BitVec.getLsbD_extractLsb', hin]
  · apply List.map_congr_left
    intro j hj
    have hlt := List.mem_range.mp hj
    apply BitVec.eq_of_getLsbD_eq
    intro i hi
    have hin : 8 * j + i < w₂ := by omega
    have hplace : 8 * (m + j) + i = 8 * m + (8 * j + i) := by omega
    simp [BitVec.getLsbD_extractLsb', hin, hplace]

/-- The two tests of an access say that it does not fit in its page. -/
theorem splits_iff {low limit : BitVec 32} {n : Nat} (hn : n = 1 ∨ n = 2 ∨ n = 3)
    (hlow : IsMask 0 n low) (hlimit : limit.toNat + 2 ^ n = 2 ^ 12) :
    (y &&& low ≠ 0 ∧ y &&& 0xfff > limit) ↔ 2 ^ 12 < y.toNat % 2 ^ 12 + 2 ^ n := by
  have hzero : y &&& low = 0 ↔ y.toNat % 2 ^ n = 0 := by
    have h := toNat_and_mask hlow y
    rw [← BitVec.toNat_inj, h]
    simp
  have hover : y &&& 0xfff > limit ↔ limit.toNat < y.toNat % 2 ^ 12 := by
    rw [gt_iff_lt, BitVec.lt_def, offset_toNat]
  rw [Ne, hzero, hover]
  rcases hn with rfl | rfl | rfl
  · omega
  · omega
  · omega

theorem word_splits_iff :
    (y &&& 1 ≠ 0 ∧ y &&& 0xfff > 0xffe) ↔ 2 ^ 12 < y.toNat % 2 ^ 12 + 2 :=
  splits_iff (Or.inl rfl) (by decide : IsMask 0 1 (1 : BitVec 32)) (by decide)

theorem long_splits_iff :
    (y &&& 3 ≠ 0 ∧ y &&& 0xfff > 0xffc) ↔ 2 ^ 12 < y.toNat % 2 ^ 12 + 4 :=
  splits_iff (Or.inr (Or.inl rfl)) (by decide : IsMask 0 2 (3 : BitVec 32)) (by decide)

theorem quad_splits_iff :
    (y &&& 7 ≠ 0 ∧ y &&& 0xfff > 0xff8) ↔ 2 ^ 12 < y.toNat % 2 ^ 12 + 8 :=
  splits_iff (Or.inr (Or.inr rfl)) (by decide : IsMask 0 3 (7 : BitVec 32)) (by decide)

end

end blumach.mem_access
