-- A store without translation as the pieces that it comes to: it is halved until each piece lies in
-- one page. The smallest first page of a quad has one byte, so that a quad has four pieces at most.
import BluMach.MemAccessPlaces
import BluMach.Tiling

namespace blumach.mem_access

open bit_fields mem_lookup tiling

/-! ## Pieces -/

/-- The bytes do not fit in the page of the first. -/
def Crosses (addr : BitVec 32) (n : Nat) : Prop := 2 ^ 12 < addr.toNat % 2 ^ 12 + n

instance (addr : BitVec 32) (n : Nat) : Decidable (Crosses addr n) :=
  inferInstanceAs (Decidable (_ < _))

/-- The bytes that the page of the first has room for. -/
def inFirst (addr : BitVec 32) : Nat := 2 ^ 12 - addr.toNat % 2 ^ 12

/-- The pieces of the `2 ^ k` bytes behind the first `i` of an access. -/
def pieces (addr : BitVec 32) : Nat → Nat → List Extent
  | 0, i => [(i, 1)]
  | k + 1, i =>
    if Crosses (linear addr i) (2 ^ (k + 1)) then pieces addr k i ++ pieces addr k (i + 2 ^ k)
    else [(i, 2 ^ (k + 1))]

/-- Those of an access that lie in the page of its first byte. -/
def firstPieces (addr : BitVec 32) (k : Nat) : List Extent :=
  (pieces addr k 0).filter fun p => p.1 < inFirst addr

/-- The `m` bytes are not aligned, and the page has a window that takes such ones. -/
def Windowed (t : Lookups) (x : BitVec 32) (m : Nat) : Prop :=
  x.toNat % m ≠ 0 ∧ t.writelookup2 (pageOf x) ≠ LOOKUP_INV

instance (t : Lookups) (x : BitVec 32) (m : Nat) : Decidable (Windowed t x m) :=
  inferInstanceAs (Decidable (_ ∧ _))

/-- The store of one piece of the data. -/
def storePiece (addr : BitVec 32) (a64 : Nat → BitVec 32) (data : List (BitVec 8)) (s : Machine)
    (p : Extent) : Machine :=
  let s := { s with mem_logical_addr := linear addr p.1 }
  if Windowed s.lookups (linear addr p.1) p.2 then
    writeWindow (linear addr p.1) ((data.drop p.1).take p.2) s
  else writeWhole (linear addr p.1) (a64 p.1) ((data.drop p.1).take p.2) s

/-- The stores without translation of all sizes, for a part of an access. -/
def storeSized (addr : BitVec 32) (a64 : Nat → BitVec 32) (data : List (BitVec 8)) :
    Nat → Nat → Machine → Machine
  | 0, i, s => storePiece addr a64 data s (i, 1)
  | k + 1, i, s =>
    if Crosses (linear addr i) (2 ^ (k + 1)) then
      let s := { s with mem_logical_addr := linear addr i }
      if Stopped s then s
      else storeSized addr a64 data k (i + 2 ^ k) (storeSized addr a64 data k i s)
    else storePiece addr a64 data s (i, 2 ^ (k + 1))

section

variable {s : Machine} {addr x : BitVec 32} {i k n : Nat} {a64 : Nat → BitVec 32}
  {data : List (BitVec 8)}

theorem pieces_tile (addr : BitVec 32) (k i : Nat) : Tiles i (pieces addr k i) (i + 2 ^ k) := by
  induction k generalizing i with
  | zero => exact .cons .nil
  | succ k ih =>
    unfold pieces
    split_ifs
    · have hsum : i + 2 ^ k + 2 ^ k = i + 2 ^ (k + 1) := by
        rw [Nat.pow_succ]
        omega
      exact hsum ▸ (ih i).append (ih (i + 2 ^ k))
    · exact .cons .nil

/-- Each piece lies in one page. -/
theorem pieces_fit {p : Extent} (h : p ∈ pieces addr k i) : ¬Crosses (linear addr p.1) p.2 := by
  induction k generalizing i with
  | zero =>
    obtain rfl := List.mem_singleton.mp h
    unfold Crosses
    omega
  | succ k ih =>
    unfold pieces at h
    split_ifs at h with hcross
    · rcases List.mem_append.mp h with h | h
      · exact ih h
      · exact ih h
    · obtain rfl := List.mem_singleton.mp h
      exact hcross

/-! ## What a store leaves alone -/

/-- There were stores and new lookups only. -/
def Stores (s s' : Machine) : Prop := s' = { s with
  lookups := s'.lookups, stored := s'.stored, mem_logical_addr := s'.mem_logical_addr }

theorem Stores.trans {s s' s'' : Machine} (h : Stores s s') (h' : Stores s' s'') :
    Stores s s'' := by
  unfold Stores at h h' ⊢
  rw [h] at h'
  exact h'

theorem stores_store (places : List Place) (data : List (BitVec 8)) :
    Stores s (s.store places data) := rfl

theorem stores_writeMapped (data : List (BitVec 8)) : Stores s (writeMapped x data s) := by
  unfold writeMapped
  dsimp only
  split_ifs
  · rfl
  · rfl

theorem writeWhole_tracked {y : BitVec 32} {page : Page} (h : tracked s x = some page) :
    writeWhole x y data s = s.store (hostPlaces (pageCell s page x) data.length) data := by
  unfold writeWhole
  rw [h]

theorem writeWhole_running {y : BitVec 32} (h : tracked s x = none) (hgo : ¬Stopped s) :
    writeWhole x y data s = writeMapped ((if paging s then y else x) &&& s.rammask) data s := by
  unfold writeWhole
  rw [h]
  exact if_neg hgo

theorem writeWhole_stopped {y : BitVec 32} (h : tracked s x = none) (hstopped : Stopped s) :
    writeWhole x y data s = s := by
  unfold writeWhole
  rw [h]
  exact if_pos hstopped

theorem stores_writeWhole (y : BitVec 32) (data : List (BitVec 8)) :
    Stores s (writeWhole x y data s) := by
  cases htracked : tracked s x with
  | some page =>
    rw [writeWhole_tracked htracked]
    exact stores_store _ _
  | none =>
    by_cases hstopped : Stopped s
    · rw [writeWhole_stopped htracked hstopped]
      rfl
    · rw [writeWhole_running htracked hstopped]
      exact stores_writeMapped _

theorem stores_piece (p : Extent) : Stores s (storePiece addr a64 data s p) := by
  have hat : Stores s { s with mem_logical_addr := linear addr p.1 } := rfl
  unfold storePiece
  dsimp only
  split_ifs
  · exact hat.trans (stores_store _ _)
  · exact hat.trans (stores_writeWhole _ _)

theorem Stores.stopped {s s' : Machine} (h : Stores s s') : Stopped s' ↔ Stopped s := by
  rw [h]
  exact Iff.rfl

theorem stores_foldl (ps : List Extent) :
    Stores s (ps.foldl (storePiece addr a64 data) s) := by
  induction ps generalizing s with
  | nil => rfl
  | cons p ps ih => exact (stores_piece p).trans ih

/-! ## The code as pieces -/

theorem foldl_at (y : BitVec 32) (k i : Nat) :
    (pieces addr k i).foldl (storePiece addr a64 data) { s with mem_logical_addr := y } =
      (pieces addr k i).foldl (storePiece addr a64 data) s := by
  cases hps : pieces addr k i with
  | nil =>
    have htile := pieces_tile addr k i
    have hpos := Nat.two_pow_pos k
    rw [hps] at htile
    have hend := htile.nil_eq
    omega
  | cons p ps => rfl

/-- When nothing has stopped them, all the pieces are stored. -/
theorem storeSized_eq (h : ¬Stopped s) : storeSized addr a64 data k i s =
    (pieces addr k i).foldl (storePiece addr a64 data) s := by
  induction k generalizing i s with
  | zero => rfl
  | succ k ih =>
    unfold storeSized pieces
    by_cases hcross : Crosses (linear addr i) (2 ^ (k + 1))
    · have hat : ¬Stopped { s with mem_logical_addr := linear addr i } := h
      rw [if_pos hcross, if_pos hcross]
      dsimp only
      rw [if_neg hat, ih hat, foldl_at, ih fun hs => h ((stores_foldl _).stopped.mp hs),
        List.foldl_append]
    · rw [if_neg hcross, if_neg hcross]
      rfl

/-- The part lies in one page. -/
theorem storeSized_whole (h : ¬Crosses (linear addr i) (2 ^ k)) :
    storeSized addr a64 data k i s = storePiece addr a64 data s (i, 2 ^ k) := by
  cases k with
  | zero => rfl
  | succ k =>
    unfold storeSized
    rw [if_neg h]

/-- The part lies in two pages. -/
theorem storeSized_cross (h : Crosses (linear addr i) (2 ^ (k + 1))) :
    storeSized addr a64 data (k + 1) i s =
      if Stopped { s with mem_logical_addr := linear addr i } then
        { s with mem_logical_addr := linear addr i }
      else storeSized addr a64 data k (i + 2 ^ k)
        (storeSized addr a64 data k i { s with mem_logical_addr := linear addr i }) := by
  rw [storeSized, if_pos h]

theorem storeSized_stopped (h : Crosses (linear addr i) (2 ^ k)) (hstopped : Stopped s) :
    storeSized addr a64 data k i s = { s with mem_logical_addr := linear addr i } := by
  cases k with
  | zero =>
    unfold Crosses at h
    omega
  | succ k =>
    have hat : Stopped { s with mem_logical_addr := linear addr i } := hstopped
    rw [storeSized_cross h, if_pos hat]

theorem misaligned_iff {low : BitVec 32} (hlow : IsMask 0 n low) :
    x &&& low ≠ 0 ↔ x.toNat % 2 ^ n ≠ 0 := by
  have h := toNat_and_mask hlow x
  rw [Ne, ← BitVec.toNat_inj, h]
  simp

theorem behind_zero (a64 : Nat → BitVec 32) : behind a64 0 = a64 := by
  funext j
  unfold behind
  rw [Nat.zero_add]

theorem behind_behind (a64 : Nat → BitVec 32) (i j : Nat) :
    behind (behind a64 i) j = behind a64 (i + j) := by
  funext l
  unfold behind
  rw [Nat.add_assoc]

/-- The two halves of a value that is a part of the data. -/
theorem take_halves {m w v : Nat} {val : BitVec w} (hv : 8 * m ≤ v)
    (h : (data.drop i).take (m + m) = bytes (m + m) val) :
    (data.drop i).take m = bytes m (val.setWidth v) ∧
      (data.drop (i + m)).take m = bytes m ((val >>> (8 * m)).setWidth v) := by
  rw [bytes_append val hv hv] at h
  have hlen := bytes_length m (val.setWidth v)
  constructor
  · have hlow := congrArg (List.take m) h
    rw [List.take_take, Nat.min_eq_left (by omega), List.take_left' hlen] at hlow
    exact hlow
  · have hhigh := congrArg (List.drop m) h
    rw [List.drop_take, List.drop_drop, Nat.add_sub_cancel, List.drop_left' hlen] at hhigh
    exact hhigh

theorem writemembl_no_mmut_eq {val : BitVec 8} (h : (data.drop i).take 1 = bytes 1 val) :
    writemembl_no_mmut (linear addr i) (a64 i) val s = storeSized addr a64 data 0 i s := by
  have hone : ¬Windowed s.lookups (linear addr i) 1 := fun hw => hw.1 (Nat.mod_one _)
  unfold writemembl_no_mmut storeSized storePiece
  dsimp only
  rw [if_neg hone, h, bytes_one]

/-- What the words and the longs do in one page. -/
theorem whole_eq {low : BitVec 32} {m : Nat} {d : List (BitVec 8)} (hlow : IsMask 0 n low)
    (hm : m = 2 ^ n) (h : (data.drop i).take m = d) :
    (if linear addr i &&& low ≠ 0 ∧ s.lookups.writelookup2 (pageOf (linear addr i)) ≠ LOOKUP_INV
      then writeWindow (linear addr i) d { s with mem_logical_addr := linear addr i }
      else writeWhole (linear addr i) (behind a64 i 0) d
        { s with mem_logical_addr := linear addr i }) =
      storePiece addr a64 data s (i, m) := by
  subst hm h
  simp only [misaligned_iff hlow]
  rfl

theorem writememwl_no_mmut_eq {val : BitVec 16} (h : (data.drop i).take 2 = bytes 2 val) :
    writememwl_no_mmut (linear addr i) (behind a64 i) val s = storeSized addr a64 data 1 i s := by
  obtain ⟨hlow, hhigh⟩ := take_halves (m := 1) (le_refl 8) h
  have hnext : linear addr i + 1 = linear addr (i + 1) := linear_linear addr i 1
  have hlow' := fun s => @writemembl_no_mmut_eq s addr i a64 data _ hlow
  have hhigh' : ∀ s, writemembl_no_mmut (linear addr i + 1) (behind a64 i 1)
      ((val >>> 8).setWidth 8) s = storeSized addr a64 data 0 (i + 2 ^ 0) s := by
    rw [hnext]
    exact fun s => writemembl_no_mmut_eq hhigh
  unfold writememwl_no_mmut
  dsimp only
  by_cases hcross : Crosses (linear addr i) 2
  · rw [if_pos (word_splits_iff.mpr hcross), storeSized_cross (k := 0) hcross, ← hlow',
      ← hhigh']
    rfl
  · rw [if_neg fun hc => hcross (word_splits_iff.mp hc), storeSized_whole hcross]
    exact whole_eq (by decide) rfl h

theorem writememll_no_mmut_eq {val : BitVec 32} (h : (data.drop i).take 4 = bytes 4 val) :
    writememll_no_mmut (linear addr i) (behind a64 i) val s = storeSized addr a64 data 2 i s := by
  obtain ⟨hlow, hhigh⟩ := take_halves (m := 2) (le_refl 16) h
  have hnext : linear addr i + 2 = linear addr (i + 2) := linear_linear addr i 2
  have hlow' := fun s => @writememwl_no_mmut_eq s addr i a64 data _ hlow
  have hhigh' : ∀ s, writememwl_no_mmut (linear addr i + 2) (behind (behind a64 i) 2)
      ((val >>> 16).setWidth 16) s = storeSized addr a64 data 1 (i + 2 ^ 1) s := by
    rw [hnext, behind_behind]
    exact fun s => writememwl_no_mmut_eq hhigh
  unfold writememll_no_mmut
  dsimp only
  by_cases hcross : Crosses (linear addr i) 4
  · rw [if_pos (long_splits_iff.mpr hcross), storeSized_cross (k := 1) hcross, ← hlow',
      ← hhigh']
  · rw [if_neg fun hc => hcross (long_splits_iff.mp hc), storeSized_whole hcross]
    exact whole_eq (by decide) rfl h

end

end blumach.mem_access
