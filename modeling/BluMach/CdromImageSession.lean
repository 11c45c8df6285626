-- A session of a cue sheet after `image_process`: its indexes divide the disc and the files, and
-- the search for a sector gives the index that has it.
import BluMach.CdromImageSearch

namespace blumach.cdrom_image

open IndexType in_place tiling

variable {F : Type}

/-! ## A session of a sheet -/

/-- A lead-out that the sheet has the place of. -/
def leadOutAt (sector_size : BitVec 32) (file : Option F) (place : BitVec 64) : Track F :=
  let ct : Track F := blankTrack 1 0xa2
  { ct with
    sector_size := sector_size
    idx := Function.update ct.idx 1 { ct.idx 1 with
      type := INDEX_NORMAL
      file := file
      file_start := place } }

/-- One session, with the tracks from 1 on. -/
structure SingleSession (leadOut : Track F) (cts : List (Track F)) : Prop where
  leadOut : leadOut = blankTrack 1 0xa2 ∨ ∃ size file place, leadOut = leadOutAt size file place
  first : cts ≠ []
  number : cts.map (fun ct => ct.point.toNat) = List.range' 1 cts.length
  few : cts.length ≤ 99
  session : ∀ ct ∈ cts, ct.session = 1
  max_index : ∀ ct ∈ cts, 2 ≤ ct.max_index.toNat ∧ ¬ct.max_index > 99
  loaded : ∀ ct ∈ cts, ∀ j, (ct.idx j).type ≠ INDEX_SPECIAL ∧ (ct.idx j).Silent

/-- The indexes of the tracks, and of a lead-out that the sheet has the place of. -/
def placed (leadOut : Track F) (cts : List (Track F)) : List (Entry F) :=
  (cts ++ [leadOut]).flatMap Track.parts

/-- The same indexes are present, at the same positions of the same files. -/
structure Track.SamePlaces (ct ct' : Track F) : Prop where
  point : ct'.point = ct.point
  max_index : ct'.max_index = ct.max_index
  sector_size : ct'.sector_size = ct.sector_size
  type : ∀ j ∈ ct.indexes, (ct'.idx j).type = INDEX_NORMAL ↔ (ct.idx j).type = INDEX_NORMAL
  file : ∀ j ∈ ct.indexes, (ct'.idx j).file = (ct.idx j).file
  file_start : ∀ j ∈ ct.indexes, (ct.idx j).type = INDEX_NORMAL →
    (ct'.idx j).file_start = (ct.idx j).file_start

theorem placed_eq (leadOut : Track F) (cts : List (Track F)) :
    placed leadOut cts = cts.flatMap Track.parts ++ leadOut.parts := by
  unfold placed
  rw [List.flatMap_append, List.flatMap_singleton]

/-- The lead tracks of the session that no sheet has the place of. -/
theorem inOrder_parts {a b c : Track F} {cts : List (Track F)} (ha : a.isSpecial = true)
    (hb : b.isSpecial = true) : (inOrder a b c cts).flatMap Track.parts = placed c cts := by
  rw [placed_eq, List.flatMap_append]
  simp only [List.flatMap_cons, List.flatMap_nil, Track.parts_special ha, Track.parts_special hb,
    List.nil_append, List.append_nil]

theorem SingleSession.numbered {leadOut : Track F} {cts : List (Track F)}
    (h : SingleSession leadOut cts) : ∀ ct ∈ cts, ct.isNumbered = true := by
  intro ct hct
  have hmem : ct.point.toNat ∈ List.range' 1 cts.length := by
    rw [← h.number]
    exact List.mem_map_of_mem hct
  obtain ⟨hlow, hhigh⟩ := List.mem_range'_1.mp hmem
  have hfew := h.few
  unfold Track.isNumbered
  rw [Bool.and_eq_true, decide_eq_true_eq, decide_eq_true_eq, BitVec.le_def, BitVec.le_def]
  constructor
  · exact hlow
  · change ct.point.toNat ≤ 99
    omega

/-! ## The pre-gap of the first track -/

theorem silentPregap_places {ct : Track F} (h : (ct.idx 0).type = INDEX_NONE) :
    ct.SamePlaces (silentPregap ct) := by
  refine ⟨rfl, rfl, rfl, fun j _ => ?_, fun j _ => ?_, fun j _ hnormal => ?_⟩
  all_goals
    unfold silentPregap
    dsimp only
    by_cases hj : j = 0
  · subst hj
    rw [Function.update_self, h]
    exact iff_of_false IndexType.noConfusion IndexType.noConfusion
  · rw [Function.update_of_ne hj]
  · subst hj
    rw [Function.update_self]
  · rw [Function.update_of_ne hj]
  · subst hj
    rw [h] at hnormal
    cases hnormal
  · rw [Function.update_of_ne hj]

theorem Track.SamePlaces.refl (ct : Track F) : ct.SamePlaces ct :=
  ⟨rfl, rfl, rfl, fun _ _ => Iff.rfl, fun _ _ => rfl, fun _ _ _ => rfl⟩

theorem Track.SamePlaces.indexes {ct ct' : Track F} (h : ct.SamePlaces ct') :
    ct'.indexes = ct.indexes := by
  unfold Track.indexes
  rw [h.max_index]

theorem Track.SamePlaces.trans {ct ct' ct'' : Track F} (h : ct.SamePlaces ct')
    (h' : ct'.SamePlaces ct'') : ct.SamePlaces ct'' := by
  have hindexes := h.indexes
  refine ⟨h'.point.trans h.point, h'.max_index.trans h.max_index,
    h'.sector_size.trans h.sector_size, fun j hj => ?_, fun j hj => ?_, fun j hj hnormal => ?_⟩
  all_goals have hj' : j ∈ ct'.indexes := by rwa [hindexes]
  · exact (h'.type j hj').trans (h.type j hj)
  · exact (h'.file j hj').trans (h.file j hj)
  · rw [h'.file_start j hj' ((h.type j hj).mpr hnormal), h.file_start j hj hnormal]

theorem adjusted_places (cts : List (Track F)) :
    List.Forall₂ Track.SamePlaces cts (adjusted cts) := by
  cases cts with
  | nil => exact .nil
  | cons ct cts =>
    refine .cons ?_ (List.forall₂_same.mpr fun ct _ => Track.SamePlaces.refl ct)
    split_ifs with hnone
    · exact silentPregap_places hnone
    · exact Track.SamePlaces.refl ct

/-! ## The indexes of tracks with the same places -/

/-- The same index of the same file. -/
structure Entry.Like (e e' : Entry F) : Prop where
  size : e'.size = e.size
  type : e'.index.type = INDEX_NORMAL ↔ e.index.type = INDEX_NORMAL
  file : e'.index.file = e.index.file
  file_start : e.index.type = INDEX_NORMAL → e'.index.file_start = e.index.file_start

theorem Entry.Like.refl (e : Entry F) : e.Like e := ⟨rfl, Iff.rfl, rfl, fun _ => rfl⟩

theorem Track.SamePlaces.entries {ct ct' : Track F} (h : ct.SamePlaces ct') :
    List.Forall₂ Entry.Like ct.entries ct'.entries := by
  unfold Track.entries
  rw [h.indexes, List.forall₂_map_left_iff, List.forall₂_map_right_iff, List.forall₂_same]
  exact fun j hj => ⟨h.sector_size, h.type j hj, h.file j hj, h.file_start j hj⟩

theorem same_entries {cts cts' : List (Track F)} (h : List.Forall₂ Track.SamePlaces cts cts') :
    List.Forall₂ Entry.Like (cts.flatMap Track.entries) (cts'.flatMap Track.entries) :=
  List.rel_flatMap h fun _ _ hct => hct.entries

theorem parts_entries {cts : List (Track F)} (h : ∀ ct ∈ cts, ct.isSpecial = false) :
    cts.flatMap Track.parts = cts.flatMap Track.entries :=
  List.flatMap_congr fun ct hct => Track.parts_eq (h ct hct)

theorem named_like {es ys : List (Entry F)} (h : List.Forall₂ Entry.Like es ys) :
    named ys = named es := by
  unfold named
  induction h with
  | nil => rfl
  | cons hx _ ih => rw [List.filterMap_cons, List.filterMap_cons, hx.file, ih]

section

variable [DecidableEq F] {files : Files F}

theorem Entry.Like.isIn {e e' : Entry F} (h : e.Like e') (f : F) :
    e'.isIn f = true ↔ e.isIn f = true := by
  rw [isIn_iff, isIn_iff, h.type, h.file]

/-- What the sheet says of the files holds of the same indexes. -/
theorem Ordered.like {es ys : List (Entry F)} (h : Ordered files es)
    (hall : List.Forall₂ Entry.Like es ys) : Ordered files ys where
  present y hy htype := by
    obtain ⟨e, he, hlike⟩ := forall₂_mem hall hy
    have hnormal := hlike.type.mp htype
    obtain ⟨f, hf, hpos, hle⟩ := h.present e he hnormal
    refine ⟨f, hlike.file.trans hf, ?_, ?_⟩
    · rw [hlike.file_start hnormal]
      exact hpos
    · unfold Entry.total
      rw [hlike.file_start hnormal, hlike.size]
      exact hle
  ascending := forall₂_pairwise hall h.ascending fun d e d' e' hd he hle f hdf hef => by
    have hdin := (hd.isIn f).mp hdf
    have hein := (he.isIn f).mp hef
    rw [hd.file_start (isIn_iff.mp hdin).1, he.file_start (isIn_iff.mp hein).1]
    exact hle f hdin hein
  sizes := forall₂_pairwise hall h.sizes fun d e d' e' hd he hsize f hdf hef => by
    rw [hd.size, he.size]
    exact hsize f ((hd.isIn f).mp hdf) (he.file.symm.trans hef)
  sized y hy hfile := by
    obtain ⟨e, he, hlike⟩ := forall₂_mem hall hy
    rw [hlike.size]
    rw [hlike.file] at hfile
    exact h.sized e he hfile

end

/-! ## The passes over a session -/

theorem blank_isSpecial {point : BitVec 8} (h : point > 99) :
    (blankTrack 1 point : Track F).isSpecial = true := by
  have htype : ((blankTrack 1 point : Track F).idx 1).type = INDEX_SPECIAL := by
    change (if point > 99 then INDEX_SPECIAL else INDEX_NONE) = _
    exact if_pos h
  exact decide_eq_true htype

/-- An index of a lead track, as `image_insert_track` makes it. -/
theorem blank_idx (point : BitVec 8) (j : Fin 100) :
    ((blankTrack 1 point : Track F).idx j).file = none ∧
      ((blankTrack 1 point : Track F).idx j).length = 0 := by
  change (blankIdx point j : TrackIndex F).file = none ∧ _
  change _ ∧ (blankIdx point j : TrackIndex F).length = 0
  unfold blankIdx
  split_ifs <;> exact ⟨rfl, rfl⟩

theorem blank_special {point : BitVec 8} (h : point > 99) {j : Fin 100}
    (hj : j ∈ (blankTrack 1 point : Track F).indexes) :
    ((blankTrack 1 point : Track F).idx j).type = INDEX_SPECIAL := by
  have hle : j.val ≤ 2 := of_decide_eq_true (List.mem_filter.mp hj).2
  have hlt : j < 3 := Fin.lt_def.mpr (Nat.lt_succ_of_le hle)
  change (blankIdx point j : TrackIndex F).type = _
  unfold blankIdx
  rw [if_pos hlt]
  exact if_pos h

variable {leadOut : Track F} {cts : List (Track F)}

theorem SingleSession.leadOut_fields (h : SingleSession leadOut cts) :
    leadOut.point = 0xa2 ∧ leadOut.session = 1 ∧ leadOut.max_index = 2 := by
  rcases h.leadOut with rfl | ⟨size, file, place, rfl⟩
  · exact ⟨rfl, rfl, rfl⟩
  · exact ⟨rfl, rfl, rfl⟩

theorem SingleSession.leadOut_silent (h : SingleSession leadOut cts) (j : Fin 100) :
    (leadOut.idx j).Silent := by
  rcases h.leadOut with rfl | ⟨size, file, place, rfl⟩
  · exact fun _ => (blank_idx 0xa2 j).2
  · intro htype
    by_cases hj : j = 1
    · subst hj
      rcases htype with htype | htype
      · cases htype
      · cases htype
    · change (Function.update (blankTrack 1 0xa2 : Track F).idx 1 _ j).length = 0
      rw [Function.update_of_ne hj]
      exact (blank_idx 0xa2 j).2

theorem SingleSession.not_special (h : SingleSession leadOut cts) :
    ∀ ct ∈ cts, ct.isSpecial = false := fun ct hct =>
  decide_eq_false (h.loaded ct hct 1).1

theorem SingleSession.leadOut_sized [DecidableEq F] {files : Files F}
    (h : SingleSession leadOut cts) (ho : Ordered files (placed leadOut cts)) : leadOut.Sized := by
  refine ⟨?_, fun j hj hfile => ?_⟩
  · rw [h.leadOut_fields.2.2]
    decide
  · rcases h.leadOut with hblank | ⟨size, file, place, hat⟩
    · rw [hblank, (blank_idx 0xa2 j).1] at hfile
      exact absurd rfl hfile
    · have hspecial : leadOut.isSpecial = false := by
        rw [hat]
        rfl
      refine ho.sized ⟨leadOut.sector_size, leadOut.idx j⟩ ?_ hfile
      rw [placed_eq, Track.parts_eq hspecial]
      exact List.mem_append_right _ (List.mem_map.mpr ⟨j, hj, rfl⟩)

/-- The session with the pre-gap of its first track. -/
theorem SingleSession.withPregap (h : SingleSession leadOut cts) :
    SingleSession leadOut (adjusted cts) where
  leadOut := h.leadOut
  first := by
    rw [← List.length_pos_iff_ne_nil, adjusted_length, List.length_pos_iff_ne_nil]
    exact h.first
  number := by
    have hpoint :
        (adjusted cts).map (fun ct => ct.point.toNat) = cts.map fun ct => ct.point.toNat := by
      cases cts with
      | nil => rfl
      | cons ct cts =>
        change ((if (ct.idx 0).type = INDEX_NONE then silentPregap ct else ct) :: cts).map _ = _
        split_ifs <;> rfl
    rw [hpoint, adjusted_length]
    exact h.number
  few := by
    rw [adjusted_length]
    exact h.few
  session := adjusted_all (fun _ hct => hct) h.session
  max_index := adjusted_all (fun _ hct => hct) h.max_index
  loaded := by
    refine adjusted_all (fun ct hct j => ?_) h.loaded
    by_cases hj : j = 0
    · subst hj
      refine ⟨IndexType.noConfusion, fun htype => ?_⟩
      rcases htype with htype | htype
      · cases htype
      · cases htype
    · change (Function.update ct.idx 0 _ j).type ≠ _ ∧ (Function.update ct.idx 0 _ j).Silent
      rw [Function.update_of_ne hj]
      exact hct j

theorem Track.Alike.trans {ct ct' ct'' : Track F} (h : ct.Alike ct') (h' : ct'.Alike ct'') :
    ct.Alike ct'' := by
  refine ⟨?_, fun j => (h.2 j).trans (h'.2 j)⟩
  rw [h'.1, h.1]

theorem Track.Alike.places {ct ct' : Track F} (h : ct.Alike ct')
    (hwithin : ∀ j ∈ ct.indexes, (ct.idx j).type = INDEX_NORMAL → 0 ≤ (ct.idx j).file_start.toInt) :
    ct.SamePlaces ct' := by
  refine ⟨by rw [h.1], by rw [h.1], by rw [h.1], fun j hj => ?_, fun j _ => (h.2 j).file,
    fun j hj => ((h.2 j).kept (hwithin j hj)).2⟩
  rw [((h.2 j).kept (hwithin j hj)).1]

theorem Track.Refined.places {ct ct' : Track F} (h : ct.Refined ct') : ct.SamePlaces ct' := by
  refine ⟨h.point, h.max_index, h.sector_size, fun j _ => ?_, fun j _ => ?_, fun j _ _ => ?_⟩
  all_goals rw [h.idx]

section

variable [DecidableEq F] {files : Files F}

/-- Pass 3 divides every file of the session. -/
theorem session_pass3 (hs : SingleSession leadOut cts) (ho : Ordered files (placed leadOut cts))
    (ht : Together (named (placed leadOut cts))) :
    ∃ a b c cts', pass3 files (order cts.length)
        (disc (blankTrack 1 0xa0) (blankTrack 1 0xa1) leadOut cts) = .ok (disc a b c cts') ∧
      AllAlike (blankTrack 1 0xa0) (blankTrack 1 0xa1) leadOut cts a b c cts' ∧
      List.Forall₂ Entry.Kept (placed leadOut cts) (placed c cts') ∧
      FilesTile files (placed c cts') := by
  have hsized : ∀ ct ∈ inOrder (blankTrack 1 0xa0) (blankTrack 1 0xa1) leadOut cts, ct.Sized := by
    intro ct hct
    rcases List.mem_append.mp hct with hct | hct
    · refine ⟨(hs.max_index ct hct).2, fun j hj hfile => ?_⟩
      refine ho.sized ⟨ct.sector_size, ct.idx j⟩ ?_ hfile
      rw [placed_eq, parts_entries hs.not_special]
      exact List.mem_append_left _ (mem_entries hct hj)
    · have hblank (point : BitVec 8) : (blankTrack 1 point : Track F).Sized :=
        ⟨(by decide : ¬(2 : BitVec 8) > 99), fun j _ hfile => absurd (blank_idx point j).1 hfile⟩
      rcases List.mem_cons.mp hct with rfl | hct
      · exact hblank 0xa0
      rcases List.mem_cons.mp hct with rfl | hct
      · exact hblank 0xa1
      · rw [List.mem_singleton.mp hct]
        exact hs.leadOut_sized ho
  obtain ⟨a, b, c, cts', fc, hpass, hwalk, halike⟩ := pass3_disc files hsized
  have ha : a.isSpecial = true := halike.first.isSpecial.trans (blank_isSpecial (by decide))
  have hb : b.isSpecial = true := halike.last.isSpecial.trans (blank_isSpecial (by decide))
  rw [inOrder_parts (blank_isSpecial (by decide)) (blank_isSpecial (by decide)),
    inOrder_parts ha hb] at hwalk
  have hfilled := walk_filled ho ht hwalk
  rw [List.reverse_reverse] at hfilled
  exact ⟨a, b, c, cts', hpass, halike, hfilled.kept, hfilled.tiles⟩

end

/-- Pass 4 goes through the session. -/
theorem session_pass4 {a b c : Track F} (ha : a.isSpecial = true) (hb : b.isSpecial = true)
    (hmax : ∀ ct ∈ inOrder a b c cts, ¬ct.max_index > 99)
    (hsession : ∀ ct ∈ inOrder a b c cts, ct.session = 1)
    (hsome : ∃ ct ∈ cts, ct.isSpecial = false) :
    ∃ a' b' c' cts' d, pass4 (order cts.length) (disc a b c cts) = .ok (d, disc a' b' c' cts') ∧
      AllAlike a b c cts a' b' c' cts' ∧ d.ls = 1 ∧
      Walk pass4_entry 0 (placed c cts) d.cur_pos (placed c' cts') := by
  obtain ⟨a', b', c', cts', d, hpass, htracks, hwalk, halike⟩ := pass4_disc hmax
  rw [inOrder_parts ha hb, inOrder_parts (halike.first.isSpecial.trans ha)
    (halike.last.isSpecial.trans hb)] at hwalk
  obtain ⟨ct, hct, hother⟩ := hsome
  refine ⟨a', b', c', cts', d, hpass, halike, ?_, hwalk⟩
  exact pass4_ls htracks hsession (.inr ⟨ct, List.mem_append_left _ hct, hother⟩)

/-- A lead track that is special has no sector. -/
theorem pointed_quiet {ct ct' : Track F} (h : ct.Pointed ct') (hnum : ct.point > 99)
    (hspecial : ∀ j ∈ ct.indexes, (ct.idx j).type = INDEX_SPECIAL) : ct'.Quiet := by
  have hindexes : ct'.indexes = ct.indexes := by
    unfold Track.indexes
    rw [h.max_index]
  refine ⟨isNumbered_false (by rw [h.point]; exact hnum), fun j hj sector => ?_⟩
  rw [hindexes] at hj
  unfold TrackIndex.has
  rcases h.idx j hj with hsame | ⟨htype, hlength⟩
  · rw [hsame, hspecial j hj]
    rfl
  · rw [htype, hlength]
    rfl

/-! ## The lead-out -/

theorem indexes_two {ct : Track F} (h : ct.max_index = 2) : ct.indexes = [0, 1, 2] := by
  unfold Track.indexes
  rw [h]
  decide

/-- The last index of a track stands at the end of its entries. -/
theorem entries_last {lt : Track F} (hmax : lt.max_index.toNat < 100) :
    ∃ es, lt.entries = es ++ [⟨lt.sector_size, lt.idx ⟨lt.max_index.toNat, hmax⟩⟩] := by
  have hmem : (⟨lt.max_index.toNat, hmax⟩ : Fin 100) ∈ lt.indexes :=
    List.mem_filter.mpr ⟨List.mem_finRange _, decide_eq_true (Nat.le_refl _)⟩
  have hsorted : lt.indexes.Pairwise (· < ·) := (List.pairwise_lt_finRange 100).filter _
  obtain ⟨front, back, hindexes⟩ := List.append_of_mem hmem
  have hback : back = [] := by
    rw [hindexes] at hsorted
    refine List.eq_nil_iff_forall_not_mem.mpr fun j hj => ?_
    have hlt := (List.pairwise_cons.mp (List.pairwise_append.mp hsorted).2.1).1 j hj
    have hj' : j ∈ lt.indexes := by
      rw [hindexes]
      exact List.mem_append_right _ (List.mem_cons_of_mem _ hj)
    have hle : j.val ≤ lt.max_index.toNat := of_decide_eq_true (List.mem_filter.mp hj').2
    exact absurd (Fin.lt_def.mp hlt) (Nat.not_lt.mpr hle)
  refine ⟨front.map fun j => ⟨lt.sector_size, lt.idx j⟩, ?_⟩
  rw [Track.entries, hindexes, hback, List.map_append]
  rfl

/-- The lead-out starts where the last track ends. -/
theorem LeadOut.start {c c' lt : Track F} {front : List (Track F)} {stop stop' : Nat}
    (hmax : lt.max_index.toNat < 100)
    (h : LeadOut c c' (lt.idx ⟨lt.max_index.toNat, hmax⟩).stop) (htwo : c.max_index = 2)
    (hkind : (c.idx 1).type = INDEX_NORMAL ∧ (c.idx 0).length = 0 ∨ c.isSpecial = true)
    (htracks : Tiles 0 (((front ++ [lt]).flatMap Track.entries).map Entry.onDisc) stop)
    (hlead : Tiles stop (c.parts.map Entry.onDisc) stop') (hfits : stop' < 2 ^ 64) :
    (c'.idx 1).start.toNat = stop := by
  cases h with
  | present htype hrefined =>
    have hzero : (c.idx 0).length = 0 := by
      rcases hkind with hkind | hspecial
      · exact hkind.2
      · have hspecial' := of_decide_eq_true hspecial
        rw [htype] at hspecial'
        cases hspecial'
    have hspecial : c.isSpecial = false := by
      refine decide_eq_false ?_
      rw [htype]
      exact IndexType.noConfusion
    rw [Track.parts_eq hspecial, Track.entries, indexes_two htwo, List.map_map] at hlead
    have hlength : (c.idx 0).length.toNat = 0 := by
      rw [hzero]
      rfl
    have hnext : (c.idx 1).start.toNat = stop + (c.idx 0).length.toNat := hlead.head.2.head.1
    rw [hrefined.idx, hnext, hlength, Nat.add_zero]
  | after htype hpointed hstart =>
    obtain ⟨es, hentries⟩ := entries_last hmax
    rw [List.flatMap_append, List.flatMap_singleton, hentries, ← List.append_assoc,
      List.map_append] at htracks
    have hlast := htracks.last
    have hle := hlead.le
    rw [hstart.1]
    unfold TrackIndex.stop
    change (lt.idx ⟨lt.max_index.toNat, hmax⟩).start.toNat +
      (lt.idx ⟨lt.max_index.toNat, hmax⟩).length.toNat = stop at hlast
    rw [BitVec.toNat_add_of_lt (by omega), hlast]

/-! ## The indexes after the passes -/

theorem placed_silent (hs : SingleSession leadOut cts) :
    ∀ e ∈ placed leadOut cts, e.index.Silent := by
  intro e he
  rw [placed_eq, parts_entries hs.not_special] at he
  rcases List.mem_append.mp he with he | he
  · obtain ⟨ct, hct, he⟩ := List.mem_flatMap.mp he
    obtain ⟨j, -, rfl⟩ := List.mem_map.mp he
    exact (hs.loaded ct hct j).2
  · unfold Track.parts at he
    split_ifs at he
    · exact absurd he List.not_mem_nil
    · obtain ⟨j, -, rfl⟩ := List.mem_map.mp he
      exact hs.leadOut_silent j

theorem kept_silent {es ys : List (Entry F)} (h : List.Forall₂ Entry.Kept es ys)
    (hes : ∀ e ∈ es, e.index.Silent) : ∀ y ∈ ys, y.index.Silent := by
  intro y hy htype
  obtain ⟨e, he, hkept⟩ := forall₂_mem h hy
  rw [hkept.type] at htype
  rw [hkept.length]
  exact hes e he htype

theorem refined_parts {cts cts' : List (Track F)} (h : List.Forall₂ Track.Refined cts cts') :
    cts'.flatMap Track.parts = cts.flatMap Track.parts := by
  induction h with
  | nil => rfl
  | @cons ct ct' cts cts' hct _ ih =>
    have hindexes : ct'.indexes = ct.indexes := by
      unfold Track.indexes
      rw [hct.max_index]
    have hparts : ct'.parts = ct.parts := by
      unfold Track.parts Track.isSpecial Track.entries
      rw [hindexes, hct.idx, hct.sector_size]
    rw [List.flatMap_cons, List.flatMap_cons, hparts, ih]

theorem LeadOut.point {c c' : Track F} {stop : BitVec 64} (h : LeadOut c c' stop) :
    c'.point = c.point := by
  cases h with
  | present _ hrefined => exact hrefined.point
  | after _ hpointed _ => exact hpointed.point

/-- The indexes after pass 6: a lead-out that the sheet has no place of has none in a file. -/
theorem LeadOut.parts {c c' : Track F} {stop : BitVec 64} (h : LeadOut c c' stop)
    (hkind : (c.idx 1).type = INDEX_NORMAL ∨ c.isSpecial = true)
    (hspecial : c.isSpecial = true → ∀ j ∈ c.indexes, (c.idx j).type = INDEX_SPECIAL) :
    c'.parts = c.parts ∨ c.parts = [] ∧ ∀ e ∈ c'.parts, e.index.type ≠ INDEX_NORMAL := by
  cases h with
  | present htype hrefined =>
    have := refined_parts (.cons hrefined .nil)
    rw [List.flatMap_singleton, List.flatMap_singleton] at this
    exact .inl this
  | after htype hpointed hstart =>
    have hc := hkind.resolve_left htype
    refine .inr ⟨Track.parts_special hc, fun e he => ?_⟩
    unfold Track.parts at he
    split_ifs at he
    · exact absurd he List.not_mem_nil
    · obtain ⟨j, hj, rfl⟩ := List.mem_map.mp he
      have hindexes : c'.indexes = c.indexes := by
        unfold Track.indexes
        rw [hpointed.max_index]
      rw [hindexes] at hj
      rcases hpointed.idx j hj with hsame | ⟨hzero, -⟩
      · change (c'.idx j).type ≠ _
        rw [hsame, hspecial hc j hj]
        exact IndexType.noConfusion
      · change (c'.idx j).type ≠ _
        rw [hzero]
        exact IndexType.noConfusion

theorem FilesTile.refined [DecidableEq F] {files : Files F} {c c' : Track F}
    {cts cts' : List (Track F)} (h : FilesTile files (placed c cts))
    (hcts : cts'.flatMap Track.parts = cts.flatMap Track.parts)
    (hc : c'.parts = c.parts ∨ c.parts = [] ∧ ∀ e ∈ c'.parts, e.index.type ≠ INDEX_NORMAL) :
    FilesTile files (placed c' cts') := by
  intro f e rest hfilter
  have hnone (hc' : ∀ e ∈ c'.parts, e.index.type ≠ INDEX_NORMAL) :
      c'.parts.filter (Entry.isIn f) = [] :=
    List.filter_eq_nil_iff.mpr fun e he hin => hc' e he (isIn_iff.mp hin).1
  refine h f e rest ?_
  rw [placed_eq, List.filter_append, hcts] at hfilter
  rw [placed_eq, List.filter_append]
  rcases hc with hc | ⟨hempty, hc'⟩
  · rw [hc] at hfilter
    exact hfilter
  · rw [hnone hc'] at hfilter
    rw [hempty]
    exact hfilter

/-- What the search gives for every sector. -/
def Found (a b c : Track F) (cts : List (Track F)) : Prop :=
  ∀ sector,
    (∀ front ct back j, cts = front ++ ct :: back → j ∈ ct.indexes →
      (ct.idx j).onDisc.Contains (place sector) →
        image_get_track (disc a b c cts) sector = ((front.length + 3 : Nat) : Int) ∧
          image_get_track_and_index (disc a b c cts) sector =
            (((front.length + 3 : Nat) : Int), (j.val : Int))) ∧
    ((∀ ct ∈ cts, ∀ j ∈ ct.indexes, ¬(ct.idx j).onDisc.Contains (place sector)) →
      image_get_track (disc a b c cts) sector =
          (if (c.idx 1).onDisc.Contains (place sector) then 2 else -1) ∧
        image_get_track_and_index (disc a b c cts) sector = (-1, -1))

/-- The lead-out has a sector just when its own extent does. -/
theorem LeadOut.has {c c' : Track F} {stop : BitVec 64} (h : LeadOut c c' stop)
    (htwo : c.max_index = 2) (hpoint : c.point > 99)
    (hspecial : c.isSpecial = true → ∀ j ∈ c.indexes, (c.idx j).type = INDEX_SPECIAL)
    (hkind : (c.idx 1).type = INDEX_NORMAL ∧ (c.idx 0).type = INDEX_SPECIAL ∧
      (c.idx 2).type = INDEX_SPECIAL ∨ c.isSpecial = true)
    (hfits : (c'.idx 1).start.toNat + (c'.idx 1).length.toNat < 2 ^ 64) (sector : BitVec 32) :
    (c'.indexes.any fun j => (c'.idx j).has sector) =
      decide ((c'.idx 1).onDisc.Contains (place sector)) := by
  cases h with
  | present htype hrefined =>
    rw [hrefined.idx] at hfits
    have hnormal : (c.idx 1).type = INDEX_NORMAL ∧ (c.idx 0).type = INDEX_SPECIAL ∧
        (c.idx 2).type = INDEX_SPECIAL := by
      refine hkind.resolve_right fun hc => ?_
      have hc' := of_decide_eq_true hc
      rw [htype] at hc'
      cases hc'
    have hsilent : (c.idx 1).Silent := by
      intro hother
      rw [htype] at hother
      rcases hother with hother | hother
      · cases hother
      · cases hother
    have hno (j : Fin 100) (hj : (c.idx j).type = INDEX_SPECIAL) :
        (c.idx j).has sector = false := by
      unfold TrackIndex.has
      rw [hj]
      rfl
    rw [indexes_two (hrefined.max_index.trans htwo), hrefined.idx]
    simp only [List.any_cons, List.any_nil, hno 0 hnormal.2.1, hno 2 hnormal.2.2, Bool.false_or,
      Bool.or_false]
    rw [Bool.eq_iff_iff, has_iff hsilent hfits, decide_eq_true_iff]
  | after htype hpointed hstart =>
    have hc : c.isSpecial = true := hkind.resolve_left fun hnormal => htype hnormal.1
    have hquiet := pointed_quiet hpointed hpoint (hspecial hc)
    have hany : (c'.indexes.any fun j => (c'.idx j).has sector) = false := by
      rw [List.any_eq_false]
      intro j hj
      rw [hquiet.2 j hj]
      exact Bool.false_ne_true
    rw [hany, eq_comm, decide_eq_false_iff_not]
    rintro ⟨hle, hlt⟩
    unfold TrackIndex.onDisc at hle hlt
    rw [hstart.2] at hlt
    exact absurd hle (Nat.not_le.mpr hlt)

theorem mem_placed (hs : SingleSession leadOut cts) {ct : Track F} (hct : ct ∈ cts) {j : Fin 100}
    (hj : j ∈ ct.indexes) : (⟨ct.sector_size, ct.idx j⟩ : Entry F) ∈ placed leadOut cts := by
  rw [placed_eq, parts_entries hs.not_special]
  exact List.mem_append_left _ (mem_entries hct hj)

/-- The tracks after a pass are numbered tracks of the session. -/
structure OfSession (ct : Track F) : Prop where
  not_special : ct.isSpecial = false
  session : ct.session = 1
  max_index : ¬ct.max_index > 99
  numbered : ct.isNumbered = true

theorem ofSession (hs : SingleSession leadOut cts) {cts' : List (Track F)}
    (h : List.Forall₂ Track.Alike cts cts') : ∀ ct ∈ cts', OfSession ct := by
  intro ct' hct'
  obtain ⟨ct, hct, halike⟩ := forall₂_mem h hct'
  have hspecial := halike.isSpecial.trans (hs.not_special ct hct)
  rw [halike.1] at hspecial ⊢
  exact ⟨hspecial, hs.session ct hct, (hs.max_index ct hct).2, hs.numbered ct hct⟩

theorem AllAlike.trans {a b c a' b' c' a'' b'' c'' : Track F} {cts cts' cts'' : List (Track F)}
    (h : AllAlike a b c cts a' b' c' cts') (h' : AllAlike a' b' c' cts' a'' b'' c'' cts'') :
    AllAlike a b c cts a'' b'' c'' cts'' where
  first := h.first.trans h'.first
  last := h.last.trans h'.last
  leadOut := h.leadOut.trans h'.leadOut
  tracks := forall₂_trans h.tracks h'.tracks fun _ _ _ hct hct' => hct.trans hct'

section

variable [DecidableEq F] {files : Files F}

/-- The lead-out stays what it is in the sheet. -/
theorem leadOut_kind (hs : SingleSession leadOut cts) (ho : Ordered files (placed leadOut cts))
    {c : Track F} (h : leadOut.Alike c) :
    ((c.idx 1).type = INDEX_NORMAL ∧ (c.idx 0).type = INDEX_SPECIAL ∧
      (c.idx 2).type = INDEX_SPECIAL) ∨
    c.isSpecial = true ∧ ∀ j ∈ c.indexes, (c.idx j).type = INDEX_SPECIAL := by
  rcases hs.leadOut with rfl | ⟨size, file, place, rfl⟩
  · refine .inr ⟨h.isSpecial.trans (blank_isSpecial (by decide)), fun j hj => ?_⟩
    rw [h.indexes] at hj
    exact (h.2 j).special.mp (blank_special (by decide) hj)
  · refine .inl ⟨?_, (h.2 0).special.mp rfl, (h.2 2).special.mp rfl⟩
    have hmem : (⟨size, (leadOutAt size file place).idx 1⟩ : Entry F) ∈
        placed (leadOutAt size file place) cts := by
      have hspecial : (leadOutAt size file place).isSpecial = false := rfl
      rw [placed_eq, Track.parts_eq hspecial, Track.entries,
        @indexes_two _ (leadOutAt size file place) rfl]
      exact List.mem_append_right _ (List.mem_cons_of_mem _ List.mem_cons_self)
    have hwithin : 0 ≤ ((leadOutAt size file place).idx 1).file_start.toInt := by
      obtain ⟨f, -, hpos, -⟩ := ho.present _ hmem rfl
      exact hpos
    exact ((h.2 1).kept fun _ => hwithin).1

/-- The indexes of the session lie where the sheet has them. -/
theorem session_places (hs : SingleSession leadOut cts) (ho : Ordered files (placed leadOut cts))
    {cts' : List (Track F)} (h : List.Forall₂ Track.Alike cts cts') :
    List.Forall₂ Track.SamePlaces cts cts' := by
  have hwithin : ∀ ct ∈ cts, ∀ j ∈ ct.indexes, (ct.idx j).type = INDEX_NORMAL →
      0 ≤ (ct.idx j).file_start.toInt := by
    intro ct hct j hj htype
    obtain ⟨f, -, hpos, -⟩ := ho.present _ (mem_placed hs hct hj) htype
    exact hpos
  clear ho hs
  induction h with
  | nil => exact .nil
  | cons hct _ ih =>
    exact .cons (hct.places (hwithin _ List.mem_cons_self))
      (ih fun ct hct => hwithin ct (List.mem_cons_of_mem _ hct))

/-- An index that is present has a file that can be read. -/
theorem session_files (hs : SingleSession leadOut cts) (ho : Ordered files (placed leadOut cts))
    {cts' : List (Track F)} (h : List.Forall₂ Track.SamePlaces cts cts') :
    ∀ ct ∈ cts', (ct.idx 1).type = INDEX_NORMAL → (ct.idx 1).file ≠ none := by
  intro ct' hct' htype
  obtain ⟨ct, hct, hsame⟩ := forall₂_mem h hct'
  have hone : (1 : Fin 100) ∈ ct.indexes := by
    refine List.mem_filter.mpr ⟨List.mem_finRange 1, decide_eq_true ?_⟩
    exact Nat.le_trans (by decide) (hs.max_index ct hct).1
  obtain ⟨f, hf, -⟩ := ho.present _ (mem_placed hs hct hone) ((hsame.type 1 hone).mp htype)
  rw [hsame.file 1 hone]
  change (ct.idx 1).file = some f at hf
  rw [hf]
  exact Option.some_ne_none f

/-- Passes 3 and 4 over the session. -/
theorem session_passes (hs : SingleSession leadOut cts) (ho : Ordered files (placed leadOut cts))
    (ht : Together (named (placed leadOut cts))) :
    ∃ tracks a b c cts' d, pass3 files (order cts.length)
        (disc (blankTrack 1 0xa0) (blankTrack 1 0xa1) leadOut cts) = .ok tracks ∧
      pass4 (order cts.length) tracks = .ok (d, disc a b c cts') ∧
      AllAlike (blankTrack 1 0xa0) (blankTrack 1 0xa1) leadOut cts a b c cts' ∧ d.ls = 1 ∧
      FilesTile files (placed c cts') ∧
      (lengths (placed c cts') < 2 ^ 64 →
        Tiles 0 ((placed c cts').map Entry.onDisc) d.cur_pos.toNat ∧ d.cur_pos.toNat < 2 ^ 64 ∧
          ∀ y ∈ placed c cts', y.index.Silent) := by
  obtain ⟨a, b, c, cts', hpass3, halike, hkept, hfiles⟩ := session_pass3 hs ho ht
  have hfields := hs.leadOut_fields
  have hof := ofSession hs halike.tracks
  have hlength : cts'.length = cts.length := halike.tracks.length_eq.symm
  have hall : ∀ ct ∈ inOrder a b c cts', ¬ct.max_index > 99 ∧ ct.session = 1 := by
    intro ct hct
    rcases List.mem_append.mp hct with hct | hct
    · exact ⟨(hof ct hct).max_index, (hof ct hct).session⟩
    rcases List.mem_cons.mp hct with rfl | hct
    · rw [halike.first.1]
      exact ⟨(by decide : ¬(2 : BitVec 8) > 99), rfl⟩
    rcases List.mem_cons.mp hct with rfl | hct
    · rw [halike.last.1]
      exact ⟨(by decide : ¬(2 : BitVec 8) > 99), rfl⟩
    · rw [List.mem_singleton.mp hct, halike.leadOut.1]
      change ¬leadOut.max_index > 99 ∧ leadOut.session = 1
      rw [hfields.2.2]
      exact ⟨by decide, hfields.2.1⟩
  have hsome : ∃ ct ∈ cts', ct.isSpecial = false := by
    have hne : cts' ≠ [] := by
      rw [← List.length_pos_iff_ne_nil, hlength]
      exact List.length_pos_iff_ne_nil.mpr hs.first
    obtain ⟨ct, hct⟩ := List.exists_mem_of_ne_nil cts' hne
    exact ⟨ct, hct, (hof ct hct).not_special⟩
  obtain ⟨a', b', c', cts'', d, hpass4, halike', hls, hwalk⟩ := session_pass4
    (halike.first.isSpecial.trans (blank_isSpecial (by decide)))
    (halike.last.isSpecial.trans (blank_isSpecial (by decide)))
    (fun ct hct => (hall ct hct).1) (fun ct hct => (hall ct hct).2) hsome
  rw [hlength] at hpass4
  refine ⟨disc a b c cts', a', b', c', cts'', d, hpass3, hpass4, halike.trans halike', hls,
    hfiles.started (hwalk.forall₂ fun _ _ _ _ => pass4_started), fun hsum => ?_⟩
  have hzero : (0 : BitVec 64).toNat = 0 := rfl
  obtain ⟨htiles, -, hsilent, -⟩ := walk_tiles hwalk (kept_silent hkept (placed_silent hs))
    (by rw [hzero, Nat.zero_add]; exact hsum)
  rw [hzero] at htiles
  exact ⟨htiles, d.cur_pos.isLt, hsilent⟩

omit [DecidableEq F] in
theorem lengths_append (es ys : List (Entry F)) : lengths (es ++ ys) = lengths es + lengths ys := by
  unfold lengths
  rw [List.map_append, List.sum_append]

omit [DecidableEq F] in
/-- The extent of the lead-out ends on the disc. -/
theorem LeadOut.fits {c c' : Track F} {stop : BitVec 64} (h : LeadOut c c' stop)
    (htwo : c.max_index = 2) {start cur : Nat} (htiles : Tiles start (c.parts.map Entry.onDisc) cur)
    (hcur : cur < 2 ^ 64) : (c'.idx 1).start.toNat + (c'.idx 1).length.toNat < 2 ^ 64 := by
  cases h with
  | present htype hrefined =>
    have hspecial : c.isSpecial = false := by
      refine decide_eq_false ?_
      rw [htype]
      exact IndexType.noConfusion
    have hmem : (⟨c.sector_size, c.idx 1⟩ : Entry F) ∈ c.parts := by
      rw [Track.parts_eq hspecial, Track.entries, indexes_two htwo]
      exact List.mem_cons_of_mem _ List.mem_cons_self
    rw [hrefined.idx]
    exact Nat.lt_of_le_of_lt (htiles.bounds (List.mem_map_of_mem hmem)).2 hcur
  | after htype hpointed hstart =>
    rw [hstart.2]
    exact (c'.idx 1).start.isLt

omit [DecidableEq F] in
/-- The lead-out after pass 4, as the sheet has it. -/
structure LeadKind (c : Track F) : Prop where
  point : c.point = 0xa2
  session : c.session = 1
  two : c.max_index = 2
  kind : (c.idx 1).type = INDEX_NORMAL ∧ (c.idx 0).type = INDEX_SPECIAL ∧
    (c.idx 2).type = INDEX_SPECIAL ∨
    c.isSpecial = true ∧ ∀ j ∈ c.indexes, (c.idx j).type = INDEX_SPECIAL

omit [DecidableEq F] in
theorem LeadKind.special {c : Track F} (h : LeadKind c) (hspecial : c.isSpecial = true) :
    ∀ j ∈ c.indexes, (c.idx j).type = INDEX_SPECIAL := by
  refine (h.kind.resolve_left fun hnormal => ?_).2
  have hspecial' := of_decide_eq_true hspecial
  rw [hnormal.1] at hspecial'
  cases hspecial'

omit [DecidableEq F] in
theorem LeadKind.silent {c : Track F} (h : LeadKind c)
    (hsilent : ∀ e ∈ c.parts, e.index.Silent) :
    (c.idx 1).type = INDEX_NORMAL ∧ (c.idx 0).length = 0 ∨ c.isSpecial = true := by
  refine h.kind.imp (fun hnormal => ⟨hnormal.1, ?_⟩) fun hspecial => hspecial.1
  have hnot : c.isSpecial = false := by
    refine decide_eq_false ?_
    rw [hnormal.1]
    exact IndexType.noConfusion
  refine hsilent ⟨c.sector_size, c.idx 0⟩ ?_ (.inl hnormal.2.1)
  rw [Track.parts_eq hnot, Track.entries, indexes_two h.two]
  exact List.mem_cons_self

omit [DecidableEq F] in
/-- What pass 4 has divided is divided after pass 6, and the search goes by it. -/
theorem session_disc {c a' b' c' lt : Track F} {cts' front : List (Track F)} {cur : Nat}
    (hof : ∀ ct ∈ cts, OfSession ct) (hcts : cts = front ++ [lt])
    (hmax : lt.max_index.toNat < 100) (ha : a'.Quiet) (hb : b'.Quiet) (hkind : LeadKind c)
    (hc : LeadOut c c' (lt.idx ⟨lt.max_index.toNat, hmax⟩).stop)
    (hrefined : List.Forall₂ Track.Refined cts cts')
    (htiles : Tiles 0 ((placed c cts).map Entry.onDisc) cur) (hcur : cur < 2 ^ 64)
    (hsilent : ∀ e ∈ placed c cts, e.index.Silent) :
    Tiles 0 ((cts'.flatMap Track.entries).map Entry.onDisc) (c'.idx 1).start.toNat ∧
      Found a' b' c' cts' := by
  have hentries : cts.flatMap Track.parts = cts.flatMap Track.entries :=
    parts_entries fun ct hct => (hof ct hct).not_special
  have hentries' : cts'.flatMap Track.entries = cts.flatMap Track.entries := by
    rw [← hentries, ← refined_parts hrefined]
    refine (parts_entries fun ct hct => ?_).symm
    obtain ⟨ct₀, hct₀, hsame⟩ := forall₂_mem hrefined hct
    unfold Track.isSpecial
    rw [hsame.idx]
    exact (hof ct₀ hct₀).not_special
  rw [placed_eq, hentries] at htiles hsilent
  rw [List.map_append] at htiles
  obtain ⟨stop, htracks, hlead⟩ := htiles.split
  have hzero := hkind.silent fun e he => hsilent e (List.mem_append_right _ he)
  have hstart := hc.start hmax hkind.two hzero (hcts ▸ htracks) hlead hcur
  have hdivided : Divided cts' stop := by
    refine ⟨fun ct hct => ?_, fun e he => ?_, ?_, Nat.lt_of_le_of_lt hlead.le hcur⟩
    · obtain ⟨ct₀, hct₀, hsame⟩ := forall₂_mem hrefined hct
      unfold Track.isNumbered
      rw [hsame.point]
      exact (hof ct₀ hct₀).numbered
    · rw [hentries'] at he
      exact hsilent e (List.mem_append_left _ he)
    · rw [hentries']
      exact htracks
  refine ⟨by rw [hstart]; exact hdivided.tiles, fun sector => ⟨?_, fun hout => ?_⟩⟩
  · intro front ct back j hcts' hj hin
    exact hdivided.found a' b' c' hcts' hj hin
  · have hpoint : c.point > 99 := by
      rw [hkind.point]
      decide
    have hnum : c'.isNumbered = false := by
      refine isNumbered_false ?_
      rw [hc.point]
      exact hpoint
    have hhas := hc.has hkind.two hpoint hkind.special (hkind.kind.imp_right fun h => h.1)
      (hc.fits hkind.two hlead hcur) sector
    have hnot := hdivided.not_found ha hb hnum hout
    rw [hhas] at hnot
    simpa only [decide_eq_true_eq] using hnot

/-- After `image_process`, the indexes of the tracks divide the disc up to the lead-out, the
indexes that are present in a file divide it, and the search for a sector gives the index that
has it. -/
theorem the_layout_is_a_partition {leadOut : Track F} {cts : List (Track F)}
    (hs : SingleSession leadOut cts) (ho : Ordered files (placed leadOut cts))
    (ht : Together (named (placed leadOut cts))) :
    ∃ a b c cts', image_process files (disc (blankTrack 1 0xa0) (blankTrack 1 0xa1) leadOut cts) =
        .ok (disc a b c cts') ∧
      List.Forall₂ Track.SamePlaces cts cts' ∧
      FilesTile files (placed c cts') ∧
      (lengths (placed c cts') < 2 ^ 64 →
        Tiles 0 ((cts'.flatMap Track.entries).map Entry.onDisc) (c.idx 1).start.toNat ∧
          Found a b c cts') := by
  -- pass 2
  have hfields := hs.leadOut_fields
  have hleads : Leads (blankTrack 1 0xa0) (blankTrack 1 0xa1) leadOut := ⟨rfl, rfl, hfields.1⟩
  have hpass2 := pass2_disc hleads hs.first hs.numbered (Nat.lt_of_le_of_lt hs.few (by decide))
  have hs2 := hs.withPregap
  have hlike : List.Forall₂ Entry.Like (placed leadOut cts) (placed leadOut (adjusted cts)) := by
    rw [placed_eq, placed_eq, parts_entries hs.not_special, parts_entries hs2.not_special]
    exact List.rel_append (same_entries (adjusted_places cts))
      (List.forall₂_same.mpr fun e _ => Entry.Like.refl e)
  have ho2 := ho.like hlike
  rw [← named_like hlike] at ht
  -- passes 3 and 4
  obtain ⟨tracks, a4, b4, c4, cts4, d, hpass3, hpass4, halike, hls, hfiles, htiles⟩ :=
    session_passes hs2 ho2 ht
  rw [adjusted_length] at hpass3 hpass4
  have hof := ofSession hs2 halike.tracks
  have hplaces := session_places hs2 ho2 halike.tracks
  have ha4 : a4.point = 0xa0 := by rw [halike.first.1]; rfl
  have hb4 : b4.point = 0xa1 := by rw [halike.last.1]; rfl
  have hkind : LeadKind c4 := by
    have hkept := leadOut_kind hs2 ho2 halike.leadOut
    rw [halike.leadOut.1] at hkept ⊢
    exact ⟨hfields.1, hfields.2.1, hfields.2.2, hkept⟩
  -- pass 6
  have hne : cts4 ≠ [] := by
    rw [← List.length_pos_iff_ne_nil, ← halike.tracks.length_eq]
    exact List.length_pos_iff_ne_nil.mpr hs2.first
  obtain ⟨front, lt, hcts4⟩ := (List.eq_nil_or_concat cts4).resolve_left hne
  rw [List.concat_eq_append] at hcts4
  have hlt : OfSession lt := hof lt
    (by rw [hcts4]; exact List.mem_append_right _ List.mem_cons_self)
  have hmax : lt.max_index.toNat < 100 := Nat.lt_succ_of_le (BitVec.not_lt.mp hlt.max_index)
  obtain ⟨a, b, c, cts', hpass6, hpa, hpb, hpc, hrefined⟩ := pass6_disc files (d := d)
    ⟨ha4, hb4, hkind.point⟩ hcts4 (fun ct hct => (hof ct hct).numbered)
    (session_files hs2 ho2 hplaces) (hls.trans hkind.session.symm)
    (hlt.session.trans hkind.session.symm) hmax (by rw [hkind.two]; decide)
  have hparts := hpc.parts (hkind.kind.imp (fun h => h.1) fun h => h.1) hkind.special
  have htracks := refined_parts hrefined
  refine ⟨a, b, c, cts', ?_, ?_, hfiles.refined htracks hparts, fun hsum => ?_⟩
  · unfold image_process
    rw [hpass2]
    change (pass3 files (order cts.length) _ >>= _) = _
    rw [hpass3]
    change (pass4 (order cts.length) tracks >>= _) = _
    rw [hpass4]
    exact hpass6
  · have hrefinedPlaces := hrefined.imp fun _ _ h => Track.Refined.places h
    have hafter := forall₂_trans hplaces hrefinedPlaces fun _ _ _ hct hct' => hct.trans hct'
    exact forall₂_trans (adjusted_places cts) hafter fun _ _ _ hct hct' => hct.trans hct'
  · have hsum4 : lengths (placed c4 cts4) < 2 ^ 64 := by
      refine Nat.lt_of_le_of_lt ?_ hsum
      rw [placed_eq, placed_eq, lengths_append, lengths_append, htracks]
      rcases hparts with hsame | ⟨hempty, -⟩
      · rw [hsame]
      · rw [hempty]
        exact Nat.add_le_add_left (Nat.zero_le _) _
    obtain ⟨htiles, hcur, hsilent⟩ := htiles hsum4
    have hspecial {ct : Track F} {point : BitVec 8} (hpoint : point > 99)
        (h : (blankTrack 1 point).Alike ct) (j : Fin 100) (hj : j ∈ ct.indexes) :
        (ct.idx j).type = INDEX_SPECIAL := by
      rw [h.indexes] at hj
      exact (h.2 j).special.mp (blank_special hpoint hj)
    have ha := pointed_quiet hpa (by rw [ha4]; decide) (hspecial (by decide) halike.first)
    have hb := pointed_quiet hpb (by rw [hb4]; decide) (hspecial (by decide) halike.last)
    exact session_disc hof hcts4 hmax ha hb hkind hpc hrefined htiles hcur hsilent

end

/-! ## Sheets -/

/-- A file of 2000 sectors, and one of 300. -/
def audioFiles : Files Bool where
  get_length file := if file then 4704000 else 705600
  read _ _ _ _ := 0

def presentAt (file : Bool) (file_start : BitVec 64) : TrackIndex Bool :=
  { (blankIndex : TrackIndex Bool) with
    type := INDEX_NORMAL
    file_start := file_start
    file := some file }

def audioTrack (point max_index : BitVec 8) (idx : Fin 100 → TrackIndex Bool) : Track Bool :=
  { (blankTrack 1 point : Track Bool) with
    attr := 0x10
    max_index := max_index
    sector_size := 2352
    idx := idx }

/-- The second track has its pre-gap at the end of the first file. -/
def twoTracks : List (Track Bool) :=
  [audioTrack 1 2 (Function.update (blankIdx 1) 1 (presentAt true 0)),
    audioTrack 2 2 (Function.update (Function.update (blankIdx 2) 0 (presentAt true 1850)) 1
      (presentAt false 0))]

theorem two_tracks_are_a_partition :
    ∃ a b c cts', image_process audioFiles
        (disc (blankTrack 1 0xa0) (blankTrack 1 0xa1) (blankTrack 1 0xa2) twoTracks) =
        .ok (disc a b c cts') ∧
      List.Forall₂ Track.SamePlaces twoTracks cts' ∧
      FilesTile audioFiles (placed c cts') ∧
      (lengths (placed c cts') < 2 ^ 64 →
        Tiles 0 ((cts'.flatMap Track.entries).map Entry.onDisc) (c.idx 1).start.toNat ∧
          Found a b c cts') := by
  refine the_layout_is_a_partition ?_ ?_ ?_
  · exact ⟨.inl rfl, by decide, by decide, by decide, by decide, by decide, by decide +kernel⟩
  · exact ⟨by decide +kernel, by decide +kernel, by decide +kernel, by decide +kernel⟩
  · decide +kernel

/-- The third index is in the first file again. -/
def interleaved : Track Bool :=
  audioTrack 1 3 (Function.update (Function.update (Function.update (blankIdx 1) 1
    (presentAt true 0)) 2 (presentAt false 0)) 3 (presentAt true 100))

/-- A pre-gap of -0:02:01. -/
def negativePregap : Track Bool :=
  audioTrack 1 2 (Function.update (Function.update (blankIdx 1) 1 (presentAt true 0)) 0
    { (blankIndex : TrackIndex Bool) with length := -151 })

/-- The parts of the first file and of the disc, and the start of the lead-out. -/
def layout (tracks : List (Track Bool)) : List Extent × List Extent × Nat :=
  match tracks with
  | _ :: _ :: c :: cts =>
    (((placed c cts).filter (Entry.isIn true)).map Entry.inFile,
      (cts.flatMap Track.entries).map Entry.onDisc, (c.idx 1).start.toNat)
  | _ => ([], [], 0)

theorem interleaved_layout : (image_process audioFiles (disc (blankTrack 1 0xa0)
    (blankTrack 1 0xa1) (blankTrack 1 0xa2) [interleaved])).map (fun tracks => (layout tracks).1) =
    .ok [(0, 2000), (100, 1900)] := by decide +kernel

theorem negativePregap_layout : (image_process audioFiles (disc (blankTrack 1 0xa0)
    (blankTrack 1 0xa1) (blankTrack 1 0xa2) [negativePregap])).map
      (fun tracks => (layout tracks).2) =
    .ok ([(0, 2 ^ 64 - 151), (2 ^ 64 - 151, 2000), (1849, 0)], 1849) := by decide +kernel

/-- Without the two conditions: a file that an index goes back to, and lengths that are too large
for the position on the disc. -/
theorem the_layout_is_no_partition :
    (SingleSession (blankTrack 1 0xa2) [interleaved] ∧
      Ordered audioFiles (placed (blankTrack 1 0xa2) [interleaved]) ∧
      ¬∃ a b c cts', image_process audioFiles (disc (blankTrack 1 0xa0) (blankTrack 1 0xa1)
        (blankTrack 1 0xa2) [interleaved]) = .ok (disc a b c cts') ∧
        FilesTile audioFiles (placed c cts')) ∧
    (SingleSession (blankTrack 1 0xa2) [negativePregap] ∧
      Ordered audioFiles (placed (blankTrack 1 0xa2) [negativePregap]) ∧
      ¬∃ a b c cts', image_process audioFiles (disc (blankTrack 1 0xa0) (blankTrack 1 0xa1)
        (blankTrack 1 0xa2) [negativePregap]) = .ok (disc a b c cts') ∧
        Tiles 0 ((cts'.flatMap Track.entries).map Entry.onDisc) (c.idx 1).start.toNat) := by
  refine ⟨⟨?_, ?_, ?_⟩, ?_, ?_, ?_⟩
  · exact ⟨.inl rfl, by decide, by decide, by decide, by decide, by decide, by decide +kernel⟩
  · exact ⟨by decide +kernel, by decide +kernel, by decide +kernel, by decide +kernel⟩
  · rintro ⟨a, b, c, cts', hprocess, htile⟩
    have hlayout := interleaved_layout
    rw [hprocess] at hlayout
    have hparts : ((placed c cts').filter (Entry.isIn true)).map Entry.inFile =
        [(0, 2000), (100, 1900)] := Except.ok.inj hlayout
    obtain ⟨e, es, hfilter, hfirst, hrest⟩ := List.map_eq_cons_iff.mp hparts
    have htiles := htile true e es hfilter
    rw [List.map_cons, hfirst, hrest] at htiles
    have hnext := htiles.head.2.head.1
    have hstart := htiles.head.1
    omega
  · exact ⟨.inl rfl, by decide, by decide, by decide, by decide, by decide, by decide +kernel⟩
  · exact ⟨by decide +kernel, by decide +kernel, by decide +kernel, by decide +kernel⟩
  · rintro ⟨a, b, c, cts', hprocess, htiles⟩
    have hlayout := negativePregap_layout
    rw [hprocess] at hlayout
    obtain ⟨hextents, hstart⟩ := Prod.mk.inj (Except.ok.inj hlayout)
    change (cts'.flatMap Track.entries).map Entry.onDisc = _ at hextents
    change (c.idx 1).start.toNat = 1849 at hstart
    rw [hextents, hstart] at htiles
    have hbounds := htiles.bounds List.mem_cons_self
    omega

end blumach.cdrom_image
