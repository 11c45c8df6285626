-- The search for a sector in tracks that divide the disc: it gives the track and the index that
-- have the sector.
import BluMach.CdromImageLayout

namespace blumach.cdrom_image

open IndexType in_place tiling

variable {F : Type}

/-! ## The search for a sector -/

/-- The place of a sector on the disc. -/
def place (sector : BitVec 32) : Nat := (sector + 150).toNat

theorem has_iff {ci : TrackIndex F} (hsilent : ci.Silent)
    (hfits : ci.start.toNat + ci.length.toNat < 2 ^ 64) (sector : BitVec 32) :
    ci.has sector = true ↔ ci.onDisc.Contains (place sector) := by
  have hplace : ((sector + 150).setWidth 64).toNat = place sector :=
    BitVec.toNat_setWidth_of_le (by decide)
  unfold TrackIndex.has TrackIndex.onDisc Extent.Contains
  dsimp only
  by_cases hlength : ci.length = 0
  · have hzero : ci.length.toNat = 0 := by rw [hlength]; rfl
    refine iff_of_false ?_ (by omega)
    rw [hlength]
    simp
  · have hpos : 1 ≤ ci.length.toNat := by
      have := BitVec.toNat_ne.mp hlength
      exact Nat.one_le_iff_ne_zero.mpr this
    have htype : ci.type = INDEX_ZERO ∨ ci.type = INDEX_NORMAL := by
      cases htype : ci.type with
      | INDEX_SPECIAL => exact absurd (hsilent (.inl htype)) hlength
      | INDEX_NONE => exact absurd (hsilent (.inr htype)) hlength
      | INDEX_ZERO => exact .inl rfl
      | INDEX_NORMAL => exact .inr rfl
    have hsum : (ci.start + ci.length - 1).toNat = ci.start.toNat + ci.length.toNat - 1 := by
      have hadd : (ci.start + ci.length).toNat = ci.start.toNat + ci.length.toNat :=
        BitVec.toNat_add_of_lt hfits
      rw [BitVec.toNat_sub_of_le, hadd]
      · rfl
      · rw [BitVec.le_def, hadd]
        exact Nat.le_trans hpos (Nat.le_add_left _ _)
    simp only [Bool.and_eq_true, Bool.or_eq_true, decide_eq_true_eq, ge_iff_le, BitVec.le_def,
      hplace, hsum]
    constructor
    · rintro ⟨⟨-, hle⟩, hlt⟩
      exact ⟨hle, by omega⟩
    · rintro ⟨hle, hlt⟩
      exact ⟨⟨⟨htype, hlength⟩, hle⟩, by omega⟩

/-- A search that goes over all the elements gives the last one that it finds. -/
theorem foldl_none {α β : Type} {hit : α → Option β} {l : List α} (h : ∀ x ∈ l, hit x = none)
    (r : β) : l.foldl (fun ret x => (hit x).getD ret) r = r := by
  induction l with
  | nil => rfl
  | cons x l ih =>
    rw [List.foldl_cons, h x List.mem_cons_self]
    exact ih fun y hy => h y (List.mem_cons_of_mem x hy)

theorem foldl_hit {α β : Type} {hit : α → Option β} {front back : List α} {x : α} {v : β}
    (hx : hit x = some v) (hback : ∀ y ∈ back, hit y = none) (r : β) :
    (front ++ x :: back).foldl (fun ret x => (hit x).getD ret) r = v := by
  rw [List.foldl_append, List.foldl_cons, hx]
  exact foldl_none hback v

def hitTrack (sector : BitVec 32) (t : Track F × Nat) : Option Int :=
  if t.1.indexes.any fun j => (t.1.idx j).has sector then some (t.2 : Int) else none

def hitIndex (sector : BitVec 32) (t : Track F × Nat) : Option (Int × Int) :=
  if t.1.isNumbered then
    (t.1.indexes.find? fun j => (t.1.idx j).has sector).map fun j => ((t.2 : Int), (j.val : Int))
  else none

theorem image_get_track_eq (tracks : List (Track F)) (sector : BitVec 32) :
    image_get_track tracks sector =
      tracks.zipIdx.foldl (fun ret t => (hitTrack sector t).getD ret) (-1) := by
  unfold image_get_track hitTrack
  congr 1
  funext ret t
  split_ifs <;> rfl

theorem image_get_track_and_index_eq (tracks : List (Track F)) (sector : BitVec 32) :
    image_get_track_and_index tracks sector =
      tracks.zipIdx.foldl (fun ret t => (hitIndex sector t).getD ret) (-1, -1) := by
  unfold image_get_track_and_index hitIndex
  congr 1
  funext ret t
  split_ifs
  · cases t.1.indexes.find? fun j => (t.1.idx j).has sector <;> rfl
  · rfl

/-- The numbered tracks divide the disc up to the end of the last one. -/
structure Divided (cts : List (Track F)) (stop : Nat) : Prop where
  numbered : ∀ ct ∈ cts, ct.isNumbered = true
  silent : ∀ e ∈ cts.flatMap Track.entries, e.index.Silent
  tiles : Tiles 0 ((cts.flatMap Track.entries).map Entry.onDisc) stop
  fits : stop < 2 ^ 64

section

variable {cts : List (Track F)} {stop : Nat} {ct : Track F} {j : Fin 100} {sector : BitVec 32}

theorem mem_entries (hct : ct ∈ cts) (hj : j ∈ ct.indexes) :
    (⟨ct.sector_size, ct.idx j⟩ : Entry F) ∈ cts.flatMap Track.entries :=
  List.mem_flatMap.mpr ⟨ct, hct, List.mem_map.mpr ⟨j, hj, rfl⟩⟩

theorem Divided.has_iff (h : Divided cts stop) (hct : ct ∈ cts) (hj : j ∈ ct.indexes) :
    (ct.idx j).has sector = true ↔ (ct.idx j).onDisc.Contains (place sector) := by
  have hmem := mem_entries hct hj
  have hbounds := h.tiles.bounds (List.mem_map_of_mem hmem)
  refine cdrom_image.has_iff (h.silent _ hmem) ?_ sector
  exact Nat.lt_of_le_of_lt hbounds.2 h.fits

/-- Two extents of a division have no place in common. -/
theorem not_both {d e : Extent} {x : Nat} (h : d.1 + d.2 ≤ e.1) :
    ¬(d.Contains x ∧ e.Contains x) := by
  rintro ⟨⟨-, hlt⟩, hle, -⟩
  omega

variable {front back : List (Track F)}

/-- No later track has the sector. -/
theorem Divided.later (h : Divided (front ++ ct :: back) stop) (hj : j ∈ ct.indexes)
    (hin : (ct.idx j).onDisc.Contains (place sector)) {ct' : Track F} (hct' : ct' ∈ back)
    {j' : Fin 100} (hj' : j' ∈ ct'.indexes) : (ct'.idx j').has sector = false := by
  have hmem : ct' ∈ front ++ ct :: back :=
    List.mem_append_right front (List.mem_cons_of_mem ct hct')
  have hpairs := h.tiles.pairwise
  rw [List.flatMap_append, List.flatMap_cons, List.map_append, List.map_append] at hpairs
  have hrest := (List.pairwise_append.mp (List.pairwise_append.mp hpairs).2.1).2.2
  have hle := hrest (ct.idx j).onDisc
    (List.mem_map.mpr ⟨⟨ct.sector_size, ct.idx j⟩, List.mem_map.mpr ⟨j, hj, rfl⟩, rfl⟩)
    (ct'.idx j').onDisc (List.mem_map_of_mem (mem_entries hct' hj'))
  rw [Bool.eq_false_iff]
  intro hhas
  exact not_both hle ⟨hin, (h.has_iff hmem hj').mp hhas⟩

/-- No other index of the track has the sector. -/
theorem Divided.only (h : Divided cts stop) (hct : ct ∈ cts) (hj : j ∈ ct.indexes)
    (hin : (ct.idx j).onDisc.Contains (place sector)) {j' : Fin 100} (hj' : j' ∈ ct.indexes)
    (hin' : (ct.idx j').onDisc.Contains (place sector)) : j = j' := by
  obtain ⟨front, back, rfl⟩ := List.append_of_mem hct
  have hpairs := h.tiles.pairwise
  rw [List.flatMap_append, List.flatMap_cons, List.map_append, List.map_append] at hpairs
  have htrack := (List.pairwise_append.mp (List.pairwise_append.mp hpairs).2.1).1
  rw [Track.entries, List.map_map, List.pairwise_map] at htrack
  let apart (i k : Fin 100) : Prop :=
    ¬((ct.idx i).onDisc.Contains (place sector) ∧ (ct.idx k).onDisc.Contains (place sector))
  have hsymm : Std.Symm apart := ⟨fun i k h hboth => h ⟨hboth.2, hboth.1⟩⟩
  have hapart : ct.indexes.Pairwise apart := htrack.imp fun hle => not_both hle
  by_contra hne
  exact hapart.forall hj hj' hne ⟨hin, hin'⟩

/-- The search finds the track and the index that have the sector. -/
theorem Divided.found (h : Divided cts stop) (a b c : Track F) (hcts : cts = front ++ ct :: back)
    (hj : j ∈ ct.indexes) (hin : (ct.idx j).onDisc.Contains (place sector)) :
    image_get_track (disc a b c cts) sector = ((front.length + 3 : Nat) : Int) ∧
      image_get_track_and_index (disc a b c cts) sector =
        (((front.length + 3 : Nat) : Int), (j.val : Int)) := by
  subst hcts
  have hmem : ct ∈ front ++ ct :: back := List.mem_append_right front List.mem_cons_self
  have hhas := (h.has_iff hmem hj).mpr hin
  have hzip : (disc a b c (front ++ ct :: back)).zipIdx =
      (disc a b c front).zipIdx ++ (ct, front.length + 3) :: back.zipIdx (front.length + 4) := by
    rw [show disc a b c (front ++ ct :: back) = disc a b c front ++ ct :: back from rfl,
      List.zipIdx_append, List.length_cons, List.length_cons, List.length_cons, Nat.zero_add]
    rfl
  have hback : ∀ t ∈ back.zipIdx (front.length + 4), ∀ j' ∈ t.1.indexes,
      (t.1.idx j').has sector = false := fun t ht j' hj' =>
    h.later hj hin (List.fst_mem_of_mem_zipIdx ht) hj'
  constructor
  · rw [image_get_track_eq, hzip]
    refine foldl_hit ?_ (fun t ht => ?_) _
    · unfold hitTrack
      rw [if_pos (List.any_eq_true.mpr ⟨j, hj, hhas⟩)]
    · unfold hitTrack
      rw [if_neg]
      rw [Bool.not_eq_true, List.any_eq_false]
      intro j' hj'
      rw [hback t ht j' hj']
      exact Bool.false_ne_true
  · rw [image_get_track_and_index_eq, hzip]
    refine foldl_hit ?_ (fun t ht => ?_) _
    · have hfind : ct.indexes.find? (fun j' => (ct.idx j').has sector) = some j := by
        cases hfind : ct.indexes.find? fun j' => (ct.idx j').has sector with
        | none =>
          have := List.find?_eq_none.mp hfind j hj
          exact absurd hhas this
        | some j' =>
          have hj' := List.mem_of_find?_eq_some hfind
          have hhas' : (ct.idx j').has sector = true := by
            have := List.find?_some hfind
            exact this
          rw [h.only hmem hj hin hj' ((h.has_iff hmem hj').mp hhas')]
      unfold hitIndex
      rw [if_pos (h.numbered ct hmem)]
      dsimp only
      rw [hfind]
      rfl
    · unfold hitIndex
      split_ifs
      · rw [List.find?_eq_none.mpr fun j' hj' => by
          rw [hback t ht j' hj']
          exact Bool.false_ne_true]
        rfl
      · rfl

/-- A track that no sector is looked for in. -/
def Track.Quiet (ct : Track F) : Prop :=
  ct.isNumbered = false ∧ ∀ j ∈ ct.indexes, ∀ sector, (ct.idx j).has sector = false

theorem hitTrack_quiet {k : Nat} (h : ∀ j ∈ ct.indexes, (ct.idx j).has sector = false) :
    hitTrack sector (ct, k) = none := by
  unfold hitTrack
  rw [if_neg]
  rw [Bool.not_eq_true, List.any_eq_false]
  intro j hj
  rw [h j hj]
  exact Bool.false_ne_true

/-- Where no numbered track has the sector, the lead-out may have it. -/
theorem Divided.not_found (h : Divided cts stop) {a b c : Track F} (ha : a.Quiet) (hb : b.Quiet)
    (hc : c.isNumbered = false)
    (hout : ∀ ct ∈ cts, ∀ j ∈ ct.indexes, ¬(ct.idx j).onDisc.Contains (place sector)) :
    image_get_track (disc a b c cts) sector =
        (if c.indexes.any fun j => (c.idx j).has sector then 2 else -1) ∧
      image_get_track_and_index (disc a b c cts) sector = (-1, -1) := by
  have hquiet : ∀ t ∈ cts.zipIdx 3, ∀ j ∈ t.1.indexes, (t.1.idx j).has sector = false := by
    intro t ht j hj
    have hmem := List.fst_mem_of_mem_zipIdx ht
    rw [Bool.eq_false_iff]
    intro hhas
    exact hout t.1 hmem j hj ((h.has_iff hmem hj).mp hhas)
  have hzip : (disc a b c cts).zipIdx = (a, 0) :: (b, 1) :: (c, 2) :: cts.zipIdx 3 := rfl
  constructor
  · rw [image_get_track_eq, hzip, List.foldl_cons, List.foldl_cons, List.foldl_cons,
      hitTrack_quiet fun j hj => ha.2 j hj sector, hitTrack_quiet fun j hj => hb.2 j hj sector,
      foldl_none fun t ht => hitTrack_quiet (hquiet t ht)]
    unfold hitTrack
    split_ifs <;> rfl
  · rw [image_get_track_and_index_eq]
    refine foldl_none (fun t ht => ?_) _
    unfold hitIndex
    rw [hzip] at ht
    rcases List.mem_cons.mp ht with rfl | ht
    · rw [ha.1]
      rfl
    rcases List.mem_cons.mp ht with rfl | ht
    · rw [hb.1]
      rfl
    rcases List.mem_cons.mp ht with rfl | ht
    · rw [hc]
      rfl
    split_ifs
    · rw [List.find?_eq_none.mpr fun j hj => by
        rw [hquiet t ht j hj]
        exact Bool.false_ne_true]
      rfl
    · rfl

end

end blumach.cdrom_image
