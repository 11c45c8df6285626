-- The passes of `image_process` over the tracks of a session: each goes through, and passes 3 and
-- 4 walk over the indexes, from the last to the first and from the first to the last.
import BluMach.CdromImage

namespace blumach.cdrom_image

open IndexType in_place

variable {F : Type} (files : Files F)

/-! ## The indexes, one after another -/

/-- An index, and the sector size of its track. -/
structure Entry (F : Type) where
  size : BitVec 32
  index : TrackIndex F

def Track.entries (ct : Track F) : List (Entry F) :=
  ct.indexes.map fun j => ⟨ct.sector_size, ct.idx j⟩

/-- The indexes that passes 3 and 4 come to. -/
def Track.parts (ct : Track F) : List (Entry F) := if ct.isSpecial then [] else ct.entries

def pass3_entry [DecidableEq F] (files : Files F) (c : FileCursor F) (e : Entry F) :
    Except Fault (FileCursor F × Entry F) :=
  (pass3_index files e.size c e.index).map fun r => (r.1, { e with index := r.2 })

def pass4_entry (cur_pos : BitVec 64) (e : Entry F) : Except Fault (BitVec 64 × Entry F) :=
  (pass4_index cur_pos e.index).map fun r => (r.1, { e with index := r.2 })

/-- The index is in the same file, and where the sheet has it. -/
structure TrackIndex.Alike (ci ci' : TrackIndex F) : Prop where
  special : ci.type = INDEX_SPECIAL ↔ ci'.type = INDEX_SPECIAL
  file : ci'.file = ci.file
  kept : (ci.type = INDEX_NORMAL → 0 ≤ ci.file_start.toInt) →
    ci'.type = ci.type ∧ (ci.type = INDEX_NORMAL → ci'.file_start = ci.file_start)

theorem TrackIndex.Alike.refl (ci : TrackIndex F) : ci.Alike ci :=
  ⟨Iff.rfl, rfl, fun _ => ⟨rfl, fun _ => rfl⟩⟩

theorem TrackIndex.Alike.trans {ci ci' ci'' : TrackIndex F} (h : ci.Alike ci')
    (h' : ci'.Alike ci'') : ci.Alike ci'' := by
  refine ⟨h.special.trans h'.special, h'.file.trans h.file, fun hwithin => ?_⟩
  obtain ⟨htype, hstart⟩ := h.kept hwithin
  obtain ⟨htype', hstart'⟩ := h'.kept fun hnormal => by
    rw [htype] at hnormal
    rw [hstart hnormal]
    exact hwithin hnormal
  refine ⟨htype'.trans htype, fun hnormal => ?_⟩
  rw [hstart' (htype.trans hnormal), hstart hnormal]

/-- The same track, with other places. -/
def Track.Alike (ct ct' : Track F) : Prop :=
  ct' = { ct with idx := ct'.idx } ∧ ∀ j, (ct.idx j).Alike (ct'.idx j)

theorem Track.Alike.refl (ct : Track F) : ct.Alike ct :=
  ⟨rfl, fun j => TrackIndex.Alike.refl (ct.idx j)⟩

theorem Track.indexes_nodup (ct : Track F) : ct.indexes.Nodup := (List.nodup_finRange 100).filter _

theorem Track.Alike.indexes {ct ct' : Track F} (h : ct.Alike ct') : ct'.indexes = ct.indexes := by
  rw [h.1]
  rfl

theorem Track.Alike.isSpecial {ct ct' : Track F} (h : ct.Alike ct') :
    ct'.isSpecial = ct.isSpecial := by
  unfold Track.isSpecial
  exact decide_eq_decide.mpr (h.2 1).special.symm

theorem fromBefore_alike (ci : TrackIndex F) : ci.Alike (fromBefore ci) := by
  unfold fromBefore
  split
  · rename_i hcase
    obtain ⟨htype, hneg⟩ := hcase
    refine ⟨?_, rfl, fun hwithin => ?_⟩
    · rw [htype]
      exact iff_of_false (by decide) IndexType.noConfusion
    · have := hwithin htype
      omega
  · exact TrackIndex.Alike.refl ci

theorem takeLength_alike (c : FileCursor F) (ci : TrackIndex F) : ci.Alike (takeLength c ci).2 := by
  unfold takeLength
  split
  · exact ⟨Iff.rfl, rfl, fun _ => ⟨rfl, fun _ => rfl⟩⟩
  · rename_i htype
    exact ⟨Iff.rfl, rfl, fun _ => ⟨rfl, fun hnormal => absurd hnormal htype⟩⟩

theorem pass3_index_alike [DecidableEq F] {c c' : FileCursor F} {size : BitVec 32}
    {ci ci' : TrackIndex F}
    (h : pass3_index files size c ci = .ok (c', ci')) : ci.Alike ci' := by
  unfold pass3_index at h
  cases hopen : openFile files size c ci with
  | error e =>
    rw [hopen] at h
    cases h
  | ok c₁ =>
    rw [hopen] at h
    have heq : takeLength c₁ (fromBefore ci) = (c', ci') := Except.ok.inj h
    have halike := (fromBefore_alike ci).trans (takeLength_alike c₁ (fromBefore ci))
    rwa [heq] at halike

theorem pass4_index_alike {cur cur' : BitVec 64} {ci ci' : TrackIndex F}
    (h : pass4_index cur ci = .ok (cur', ci')) : ci.Alike ci' := by
  unfold pass4_index at h
  split at h <;> cases h <;> exact ⟨Iff.rfl, rfl, fun _ => ⟨rfl, fun _ => rfl⟩⟩

/-- A loop over the indexes of a track is a walk over them. -/
theorem eachIndex_walk {σ : Type} {order : List (Fin 100) → List (Fin 100)}
    {step : σ → TrackIndex F → Except Fault (σ × TrackIndex F)} {s s' : σ} {ct : Track F}
    {cis : List (TrackIndex F)} (hmax : ¬ct.max_index > 99) (hnodup : (order ct.indexes).Nodup)
    (halike : ∀ s ci s₁ ci', step s ci = .ok (s₁, ci') → ci.Alike ci')
    (h : Walk step s ((order ct.indexes).map ct.idx) s' cis) :
    ∃ ct', eachIndex order step s ct = .ok (s', ct') ∧ ct.Alike ct' ∧
      (order ct.indexes).map ct'.idx = cis := by
  obtain ⟨idx, hloop, hmap, hothers⟩ := foldlM_visitAt hnodup h
  refine ⟨{ ct with idx := idx }, ?_, ⟨rfl, fun j => ?_⟩, hmap⟩
  · unfold eachIndex
    rw [if_neg hmax, hloop]
    rfl
  · by_cases hj : j ∈ order ct.indexes
    · have hall := h.forall₂ halike
      rw [← hmap, List.forall₂_map_left_iff, List.forall₂_map_right_iff, List.forall₂_same] at hall
      exact hall j hj
    · have hsame : ({ ct with idx := idx } : Track F).idx j = ct.idx j := hothers j hj
      rw [hsame]
      exact TrackIndex.Alike.refl (ct.idx j)

theorem openFile_ok [DecidableEq F] {size : BitVec 32} {ci : TrackIndex F}
    (hsize : ci.file ≠ none → size ≠ 0) (c : FileCursor F) :
    ∃ c', openFile files size c ci = .ok c' := by
  unfold openFile
  split
  · exact ⟨c, rfl⟩
  · rename_i f hf
    split_ifs with htf hzero
    · exact ⟨c, rfl⟩
    · exact absurd hzero (hsize (by rw [hf]; exact Option.some_ne_none f))
    · exact ⟨_, rfl⟩

theorem pass3_index_eq [DecidableEq F] {size : BitVec 32} {ci : TrackIndex F} {c c₁ : FileCursor F}
    (h : openFile files size c ci = .ok c₁) :
    pass3_index files size c ci = .ok (takeLength c₁ (fromBefore ci)) := by
  unfold pass3_index
  rw [h]
  rfl

theorem pass4_index_ok (cur : BitVec 64) (ci : TrackIndex F) :
    ∃ cur' ci', pass4_index cur ci = .ok (cur', ci') := by
  unfold pass4_index
  split <;> exact ⟨_, _, rfl⟩

theorem Track.entries_reverse (ct : Track F) :
    ct.entries.reverse =
      (ct.indexes.reverse.map ct.idx).map fun ci => (⟨ct.sector_size, ci⟩ : Entry F) := by
  rw [Track.entries, ← List.map_reverse, List.map_map]
  rfl

theorem Track.entries_eq (ct : Track F) :
    ct.entries = (ct.indexes.map ct.idx).map fun ci => (⟨ct.sector_size, ci⟩ : Entry F) := by
  rw [Track.entries, List.map_map]
  rfl

theorem Track.parts_eq {ct : Track F} (h : ct.isSpecial = false) : ct.parts = ct.entries := by
  unfold Track.parts
  rw [h]
  exact if_neg Bool.false_ne_true

theorem Track.parts_special {ct : Track F} (h : ct.isSpecial = true) : ct.parts = [] := by
  unfold Track.parts
  rw [h]
  exact if_pos rfl

/-- A track has a sector size if one of its indexes names a file. -/
def Track.Sized (ct : Track F) : Prop :=
  ¬ct.max_index > 99 ∧ ∀ j ∈ ct.indexes, (ct.idx j).file ≠ none → ct.sector_size ≠ 0

theorem pass3_track_walk [DecidableEq F] {ct : Track F} (hct : ct.Sized) (c : FileCursor F) :
    ∃ c' ct', pass3_track files c ct = .ok (c', ct') ∧
      PartStep (pass3_entry files) id (fun ct => ct.parts.reverse) Track.Alike c ct c' ct' := by
  unfold pass3_track
  cases hspecial : ct.isSpecial with
  | true =>
    refine ⟨c, ct, rfl, ?_, Track.Alike.refl ct⟩
    change Walk _ c ct.parts.reverse c ct.parts.reverse
    rw [Track.parts_special hspecial]
    exact .nil
  | false =>
    have hindex : ∀ c, ∀ ci ∈ ct.indexes.reverse.map ct.idx,
        ∃ c' ci', pass3_index files ct.sector_size c ci = .ok (c', ci') := by
      intro c ci hci
      obtain ⟨j, hj, rfl⟩ := List.mem_map.mp hci
      obtain ⟨c₁, hopen⟩ := openFile_ok files (hct.2 j (List.mem_reverse.mp hj)) c
      exact ⟨_, _, pass3_index_eq files hopen⟩
    obtain ⟨c', cis, hwalk⟩ := exists_walk hindex c
    obtain ⟨ct', hloop, halike, hmap⟩ := eachIndex_walk hct.1
      (List.nodup_reverse.mpr ct.indexes_nodup) (fun _ _ _ _ => pass3_index_alike files) hwalk
    refine ⟨c', ct', hloop, ?_, halike⟩
    have hspecial' : ct'.isSpecial = false := halike.isSpecial.trans hspecial
    have hsize : ct'.sector_size = ct.sector_size := by rw [halike.1]
    change Walk _ c ct.parts.reverse c' ct'.parts.reverse
    rw [Track.parts_eq hspecial, Track.parts_eq hspecial', ct.entries_reverse, ct'.entries_reverse,
      halike.indexes, hmap, hsize]
    refine hwalk.map _ fun c ci c₁ ci' hci => ?_
    unfold pass3_entry
    rw [hci]
    rfl

theorem pass4_track_walk {ct : Track F} (hmax : ¬ct.max_index > 99) (d : DiscCursor) :
    ∃ d' ct', pass4_track d ct = .ok (d', ct') ∧
      PartStep pass4_entry DiscCursor.cur_pos Track.parts Track.Alike d ct d' ct' := by
  unfold pass4_track
  cases hspecial : ct.isSpecial with
  | true =>
    refine ⟨d, ct, rfl, ?_, Track.Alike.refl ct⟩
    rw [Track.parts_special hspecial]
    exact .nil
  | false =>
    obtain ⟨cur, cis, hwalk⟩ := @exists_walk _ _ _ pass4_index (ct.indexes.map ct.idx)
      (fun cur ci _ => pass4_index_ok cur ci) d.cur_pos
    obtain ⟨ct', hloop, halike, hmap⟩ := @eachIndex_walk _ _ id _ _ _ _ _ hmax ct.indexes_nodup
      (fun _ _ _ _ => pass4_index_alike) hwalk
    have hspecial' : ct'.isSpecial = false := halike.isSpecial.trans hspecial
    have hsize : ct'.sector_size = ct.sector_size := by rw [halike.1]
    have hparts : Walk pass4_entry d.cur_pos ct.parts cur ct'.parts := by
      rw [Track.parts_eq hspecial, Track.parts_eq hspecial', ct.entries_eq, ct'.entries_eq,
        halike.indexes, hsize]
      change List.map ct'.idx ct.indexes = cis at hmap
      rw [hmap]
      refine hwalk.map _ fun cur ci cur' ci' hci => ?_
      unfold pass4_entry
      rw [hci]
      rfl
    simp only [Bool.false_eq_true, if_false]
    rw [hloop]
    by_cases hsession : ct.session ≠ d.ls
    · refine ⟨_, ct', if_pos hsession, hparts, halike⟩
    · refine ⟨_, ct', if_neg hsession, hparts, halike⟩

/-! ## The order of the passes -/

/-- The numbered tracks, and then the lead tracks. -/
def order (n : Nat) : List Nat := List.range' 3 n ++ [0, 1, 2]

theorem order_nodup (n : Nat) : (order n).Nodup := by
  refine List.nodup_append.mpr ⟨List.nodup_range', by decide, fun i hi k hk hik => ?_⟩
  have hle := (List.mem_range'_1.mp hi).1
  simp only [List.mem_cons, List.not_mem_nil, or_false] at hk
  omega

theorem order_read {α : Type} (a b c : α) (l : List α) :
    (order l.length).map (fun i => (a :: b :: c :: l)[i]?) = (l ++ [a, b, c]).map some := by
  have hl : (List.range' 3 l.length).map (fun i => (a :: b :: c :: l)[i]?) = l.map some := by
    refine List.ext_getElem (by simp) fun k hk hk' => ?_
    rw [List.length_map] at hk'
    rw [List.getElem_map, List.getElem_map, List.getElem_range', Nat.one_mul,
      Nat.add_comm 3 k]
    exact List.getElem?_eq_getElem hk'
  rw [order, List.map_append, List.map_append, hl]
  rfl

/-- What is read in the order of the passes is the whole array. -/
theorem order_eq {α : Type} {n : Nat} {list ys : List α} (hlength : list.length = n + 3)
    (h : (order n).map (fun i => list[i]?) = ys.map some) :
    ∃ a b c l, list = a :: b :: c :: l ∧ ys = l ++ [a, b, c] := by
  match list, hlength with
  | a :: b :: c :: l, hlength =>
    have hl : l.length = n := by
      simp only [List.length_cons] at hlength
      omega
    refine ⟨a, b, c, l, rfl, ?_⟩
    rw [← hl, order_read] at h
    exact (List.map_injective_iff.mpr (Option.some_injective α) h).symm

/-- The array of a session: the three lead tracks first. -/
abbrev disc (a b c : Track F) (cts : List (Track F)) : List (Track F) := a :: b :: c :: cts

/-- The tracks in the order of the passes. -/
abbrev inOrder (a b c : Track F) (cts : List (Track F)) : List (Track F) := cts ++ [a, b, c]

variable {a b c : Track F} {cts : List (Track F)}

/-- What holds of the tracks in the order of the passes holds of each kind of them. -/
structure AllAlike (a b c : Track F) (cts : List (Track F)) (a' b' c' : Track F)
    (cts' : List (Track F)) : Prop where
  first : a.Alike a'
  last : b.Alike b'
  leadOut : c.Alike c'
  tracks : List.Forall₂ Track.Alike cts cts'

theorem allAlike {a' b' c' : Track F} {cts' : List (Track F)}
    (h : List.Forall₂ Track.Alike (inOrder a b c cts) (inOrder a' b' c' cts')) :
    AllAlike a b c cts a' b' c' cts' := by
  have hlength : cts.length = cts'.length := by
    have := h.length_eq
    simp only [List.length_append, List.length_cons, List.length_nil] at this
    omega
  have htracks := List.forall₂_take_append _ _ _ h
  have hleads := List.forall₂_drop_append _ _ _ h
  rw [List.take_left' hlength] at htracks
  rw [List.drop_left' hlength] at hleads
  obtain ⟨ha, hrest⟩ := List.forall₂_cons.mp hleads
  obtain ⟨hb, hrest⟩ := List.forall₂_cons.mp hrest
  exact ⟨ha, hb, (List.forall₂_cons.mp hrest).1, htracks⟩

theorem pass3_disc [DecidableEq F] (h : ∀ ct ∈ inOrder a b c cts, ct.Sized) :
    ∃ a' b' c' cts' fc, pass3 files (order cts.length) (disc a b c cts) = .ok (disc a' b' c' cts') ∧
      Walk (pass3_entry files) ⟨none, 0⟩ ((inOrder a b c cts).flatMap Track.parts).reverse fc
        ((inOrder a' b' c' cts').flatMap Track.parts).reverse ∧
      AllAlike a b c cts a' b' c' cts' := by
  obtain ⟨fc, ys, htracks, hparts, halike⟩ :=
    exists_walk_parts
      (fun c ct hct => pass3_track_walk files (h ct (List.mem_reverse.mp hct)) c) ⟨none, 0⟩
  have hread : (order cts.length).reverse.map (fun i => (disc a b c cts)[i]?) =
      (inOrder a b c cts).reverse.map some := by
    rw [List.map_reverse, order_read, List.map_reverse]
  obtain ⟨list, hloop, hmap, hlength, -⟩ :=
    foldlM_visit Fault.OutOfBounds (List.nodup_reverse.mpr (order_nodup _)) hread htracks
  rw [List.map_reverse, List.reverse_eq_iff, ← List.map_reverse] at hmap
  obtain ⟨a', b', c', cts', rfl, hys⟩ := order_eq hlength hmap
  obtain rfl : ys = (inOrder a' b' c' cts').reverse := List.reverse_eq_iff.mp hys
  refine ⟨a', b', c', cts', fc, ?_, ?_, allAlike (List.forall₂_reverse_iff.mp halike)⟩
  · unfold pass3
    rw [hloop]
    rfl
  · rw [List.reverse_flatMap, List.reverse_flatMap]
    exact hparts

theorem pass4_disc (h : ∀ ct ∈ inOrder a b c cts, ¬ct.max_index > 99) :
    ∃ a' b' c' cts' d, pass4 (order cts.length) (disc a b c cts) =
        .ok (d, disc a' b' c' cts') ∧
      Walk pass4_track ⟨0, 0, fun _ => 0⟩ (inOrder a b c cts) d (inOrder a' b' c' cts') ∧
      Walk pass4_entry 0 ((inOrder a b c cts).flatMap Track.parts) d.cur_pos
        ((inOrder a' b' c' cts').flatMap Track.parts) ∧
      AllAlike a b c cts a' b' c' cts' := by
  obtain ⟨d, ys, htracks, hparts, halike⟩ :=
    exists_walk_parts (fun d ct hct => pass4_track_walk (h ct hct) d) ⟨0, 0, fun _ => 0⟩
  obtain ⟨list, hloop, hmap, hlength, -⟩ :=
    foldlM_visit Fault.OutOfBounds (order_nodup _) (order_read a b c cts) htracks
  obtain ⟨a', b', c', cts', rfl, rfl⟩ := order_eq hlength hmap
  exact ⟨a', b', c', cts', d, hloop, htracks, hparts, allAlike halike⟩

/-! ## Pass 2 of a session -/

/-- The first track has a pre-gap. -/
def adjusted : List (Track F) → List (Track F)
  | [] => []
  | ct :: cts => (if (ct.idx 0).type = INDEX_NONE then silentPregap ct else ct) :: cts

theorem adjusted_length (cts : List (Track F)) : (adjusted cts).length = cts.length := by
  cases cts <;> rfl

theorem adjusted_all {p : Track F → Prop} (hp : ∀ ct, p ct → p (silentPregap ct))
    (h : ∀ ct ∈ cts, p ct) : ∀ ct ∈ adjusted cts, p ct := by
  cases cts with
  | nil => exact h
  | cons ct cts =>
    intro ct' hct'
    rcases List.mem_cons.mp hct' with rfl | hct'
    · split
      · exact hp ct (h ct List.mem_cons_self)
      · exact h ct List.mem_cons_self
    · exact h ct' (List.mem_cons_of_mem ct hct')

theorem adjustFirst_disc (h : cts ≠ []) :
    adjustFirst (disc a b c cts) = .ok (disc a b c (adjusted cts)) := by
  cases cts with
  | nil => exact absurd rfl h
  | cons ct cts =>
    change (if (ct.idx 0).type = INDEX_NONE then _ else _) =
      Except.ok (disc a b c ((if (ct.idx 0).type = INDEX_NONE then silentPregap ct else ct) :: cts))
    split_ifs
    · rfl
    · rfl

theorem pushMap_ok {map : List Nat} {i : Nat} (h : map.length < 256) :
    pushMap map i = .ok (map ++ [i]) := if_pos h

theorem pass2_lead {s : Remap F} {i : Nat} {ct : Track F} (hct : s.tracks[i]? = some ct)
    (hnum : ct.isNumbered = false) (hpoint : ct.point = 0xa0 ∨ ct.point = 0xa1 ∨ ct.point = 0xa2) :
    pass2_step s i = .ok { s with lead := s.lead.set (ct.point &&& 0x03).toNat i } := by
  unfold pass2_step trackAt
  rw [hct]
  change (if (ct.isNumbered || decide (ct.point ≥ 0xb0)) = true then _ else _) = _
  rw [hnum]
  rcases hpoint with h | h | h
  all_goals
    rw [h]
    rfl

theorem pass2_numbered {s : Remap F} {i : Nat} {ct : Track F} (hct : s.tracks[i]? = some ct)
    (hnum : ct.isNumbered = true) (hroom : s.map.length < 256) :
    pass2_step s i = .ok { s with map := s.map ++ [i] } := by
  have hpoint : ct.point ≠ 0xb0 := by
    intro h
    simp only [Track.isNumbered, h] at hnum
    exact absurd hnum (by decide)
  unfold pass2_step trackAt
  rw [hct]
  change (if (ct.isNumbered || decide (ct.point ≥ 0xb0)) = true then _ else _) = _
  rw [hnum, Bool.true_or, if_pos rfl, if_neg hpoint]
  change (pushMap s.map i >>= fun map => pure _) = _
  rw [pushMap_ok hroom]
  rfl

/-- The numbered tracks are entered one after the other. -/
theorem pass2_tracks (hnum : ∀ ct ∈ cts, ct.isNumbered = true) (hroom : cts.length < 253) {n : Nat}
    (hn : n ≤ cts.length) (lead : List Nat) :
    (List.range' 3 n).foldlM pass2_step ⟨disc a b c cts, [], lead⟩ =
      .ok ⟨disc a b c cts, List.range' 3 n, lead⟩ := by
  induction n with
  | zero => rfl
  | succ n ih =>
    have hct : (disc a b c cts)[3 + n]? = some cts[n] := by
      rw [Nat.add_comm]
      exact List.getElem?_eq_getElem hn
    rw [List.range'_1_concat, List.foldlM_append, ih (by omega)]
    change ([3 + n].foldlM pass2_step ⟨disc a b c cts, List.range' 3 n, lead⟩) = _
    have hlength : (List.range' 3 n).length < 256 := by
      rw [List.length_range']
      omega
    rw [List.foldlM_cons, pass2_numbered hct (hnum _ (List.getElem_mem _)) hlength]
    rfl

/-- The points of the lead tracks. -/
structure Leads (a b c : Track F) : Prop where
  first : a.point = 0xa0
  last : b.point = 0xa1
  leadOut : c.point = 0xa2

theorem isNumbered_false {ct : Track F} (h : ct.point > 99) : ct.isNumbered = false := by
  unfold Track.isNumbered
  rw [decide_eq_false (BitVec.not_le.mpr h), Bool.and_false]

theorem disc_range (cts : List (Track F)) :
    List.range (disc a b c cts).length = [0, 1, 2] ++ List.range' 3 cts.length := by
  have hlength : (disc a b c cts).length = 3 + cts.length := by
    simp only [List.length_cons]
    omega
  rw [hlength, List.range_add, List.range'_eq_map_range]
  rfl

theorem pass2_leads (hleads : Leads a b c) :
    [0, 1, 2].foldlM pass2_step ⟨disc a b c cts, [], [0, 0, 0]⟩ =
      .ok ⟨disc a b c cts, [], [0, 1, 2]⟩ := by
  have hfirst : a.isNumbered = false := isNumbered_false (by rw [hleads.first]; decide)
  have hlast : b.isNumbered = false := isNumbered_false (by rw [hleads.last]; decide)
  have hleadOut : c.isNumbered = false := isNumbered_false (by rw [hleads.leadOut]; decide)
  rw [List.foldlM_cons, pass2_lead rfl hfirst (.inl hleads.first), hleads.first]
  change ([1, 2].foldlM pass2_step ⟨disc a b c cts, [], [0, 0, 0]⟩) = _
  rw [List.foldlM_cons, pass2_lead rfl hlast (.inr (.inl hleads.last)), hleads.last]
  change ([2].foldlM pass2_step ⟨disc a b c cts, [], [0, 1, 0]⟩) = _
  rw [List.foldlM_cons, pass2_lead rfl hleadOut (.inr (.inr hleads.leadOut)), hleads.leadOut]
  rfl

theorem pass2_disc (hleads : Leads a b c) (hfirst : cts ≠ [])
    (hnum : ∀ ct ∈ cts, ct.isNumbered = true) (hroom : cts.length < 253) :
    pass2 (disc a b c cts) = .ok (disc a b c (adjusted cts), order cts.length) := by
  have hlength := adjusted_length cts
  have htracks := pass2_tracks (a := a) (b := b) (c := c) (adjusted_all (fun _ h => h) hnum)
    (by rw [hlength]; exact hroom) (Nat.le_refl _) [0, 1, 2]
  have hloop : (List.range (disc a b c (adjusted cts)).length).foldlM pass2_step
      ⟨disc a b c (adjusted cts), [], [0, 0, 0]⟩ =
        .ok ⟨disc a b c (adjusted cts), List.range' 3 cts.length, [0, 1, 2]⟩ := by
    rw [disc_range, List.foldlM_append, pass2_leads hleads, ← hlength]
    exact htracks
  have hpush : [0, 1, 2].foldlM pushMap (List.range' 3 cts.length) = .ok (order cts.length) := by
    have hmap : (List.range' 3 cts.length).length = cts.length := List.length_range'
    rw [List.foldlM_cons, pushMap_ok (by omega)]
    change ([1, 2].foldlM pushMap (List.range' 3 cts.length ++ [0])) = _
    rw [List.foldlM_cons, pushMap_ok
      (by simp only [List.length_append, hmap, List.length_singleton]; omega)]
    change ([2].foldlM pushMap (List.range' 3 cts.length ++ [0] ++ [1])) = _
    rw [List.foldlM_cons, pushMap_ok
      (by simp only [List.length_append, hmap, List.length_singleton]; omega)]
    simp only [List.append_assoc, order]
    rfl
  have hall : (order cts.length).length = (disc a b c (adjusted cts)).length := by
    rw [order, List.length_append, List.length_range']
    simp only [List.length_cons, List.length_nil, hlength]
  unfold pass2
  rw [adjustFirst_disc hfirst]
  change ((List.range (disc a b c (adjusted cts)).length).foldlM pass2_step _ >>= _) = _
  rw [hloop]
  change ([0, 1, 2].foldlM pushMap (List.range' 3 cts.length) >>= _) = _
  rw [hpush]
  change (if (order cts.length).length ≠ (disc a b c (adjusted cts)).length then _ else _) = _
  rw [if_neg (not_not.mpr hall)]
  rfl

/-! ## Pass 6 of a session -/

/-- The session of the last track that pass 4 comes to. -/
theorem pass4_track_ls {d d' : DiscCursor} {ct ct' : Track F}
    (h : pass4_track d ct = .ok (d', ct')) :
    d'.ls = if ct.isSpecial then d.ls else ct.session := by
  unfold pass4_track at h
  cases hspecial : ct.isSpecial with
  | true =>
    rw [hspecial] at h
    cases h
    rfl
  | false =>
    simp only [hspecial, Bool.false_eq_true, if_false] at h ⊢
    cases hloop : eachIndex id pass4_index d.cur_pos ct with
    | error e =>
      rw [hloop] at h
      cases h
    | ok r =>
      rw [hloop] at h
      change (if ct.session ≠ d.ls then _ else _) = _ at h
      by_cases hsession : ct.session ≠ d.ls
      · rw [if_pos hsession] at h
        cases h
        rfl
      · rw [if_neg hsession] at h
        cases h
        exact (not_not.mp hsession).symm

theorem pass4_ls {d d' : DiscCursor} {xs ys : List (Track F)} (h : Walk pass4_track d xs d' ys)
    {session : BitVec 8} (hsession : ∀ ct ∈ xs, ct.session = session)
    (hsome : d.ls = session ∨ ∃ ct ∈ xs, ct.isSpecial = false) : d'.ls = session := by
  induction h with
  | nil => exact hsome.resolve_right fun ⟨_, hct, _⟩ => List.not_mem_nil hct
  | @cons d d₁ d' ct ct' xs ys hx _ ih =>
    have hls := pass4_track_ls hx
    rw [hsession ct List.mem_cons_self] at hls
    refine ih (fun ct hct => hsession ct (List.mem_cons_of_mem _ hct)) ?_
    cases hspecial : ct.isSpecial with
    | false =>
      rw [hspecial] at hls
      exact .inl hls
    | true =>
      rw [hspecial] at hls
      rcases hsome with hd | ⟨ct₁, hct₁, hother⟩
      · exact .inl (hls.trans hd)
      · rcases List.mem_cons.mp hct₁ with rfl | hct₁
        · rw [hspecial] at hother
          cases hother
        · exact .inr ⟨ct₁, hct₁, hother⟩

/-- The places of a track are not touched. -/
structure Track.Refined (ct ct' : Track F) : Prop where
  idx : ct'.idx = ct.idx
  point : ct'.point = ct.point
  session : ct'.session = ct.session
  max_index : ct'.max_index = ct.max_index
  sector_size : ct'.sector_size = ct.sector_size

theorem refine_mode_refined {ct : Track F} (h : (ct.idx 1).type = INDEX_NORMAL →
    (ct.idx 1).file ≠ none) : ∃ ct', refine_mode files ct = .ok ct' ∧ ct.Refined ct' := by
  unfold refine_mode
  dsimp only
  by_cases hcase : (ct.idx 1).type = INDEX_NORMAL ∧ ct.mode ≥ 1
  · rw [if_pos hcase]
    cases hfile : (ct.idx 1).file with
    | none => exact absurd hfile (h hcase.1)
    | some file =>
      dsimp only
      split_ifs <;> exact ⟨_, rfl, rfl, rfl, rfl, rfl, rfl⟩
  · rw [if_neg hcase]
    exact ⟨ct, rfl, rfl, rfl, rfl, rfl, rfl⟩

theorem pass6_step_ok {d : DiscCursor} (front : List (Track F)) {back : List (Track F)}
    {ct ct' : Track F}
    (h : pass6_track files d (front ++ ct :: back) ct = .ok ct') :
    pass6_step files d (front ++ ct :: back) front.length = .ok (front ++ ct' :: back) := by
  have hat : (front ++ ct :: back)[front.length]? = some ct := by
    rw [List.getElem?_append_right (Nat.le_refl _), Nat.sub_self]
    rfl
  unfold pass6_step trackAt
  rw [hat]
  change (pass6_track files d (front ++ ct :: back) ct >>= _) = _
  rw [h]
  change Except.ok ((front ++ ct :: back).set front.length ct') = _
  rw [List.set_append_right _ _ (Nat.le_refl _), Nat.sub_self]
  rfl

/-- The numbered tracks are refined one after the other. -/
theorem pass6_tracks (d : DiscCursor) (cts : List (Track F)) (front : List (Track F))
    (hnum : ∀ ct ∈ cts, ct.isNumbered = true)
    (hfile : ∀ ct ∈ cts, (ct.idx 1).type = INDEX_NORMAL → (ct.idx 1).file ≠ none) :
    ∃ cts', (List.range' front.length cts.length).foldlM (pass6_step files d) (front ++ cts) =
        .ok (front ++ cts') ∧ List.Forall₂ Track.Refined cts cts' := by
  induction cts generalizing front with
  | nil => exact ⟨[], rfl, .nil⟩
  | cons ct cts ih =>
    obtain ⟨ct', hct', hrefined⟩ := refine_mode_refined files (hfile ct List.mem_cons_self)
    have htrack : pass6_track files d (front ++ ct :: cts) ct = .ok ct' := by
      unfold pass6_track
      rw [hnum ct List.mem_cons_self]
      exact hct'
    obtain ⟨cts', hloop, hall⟩ := ih (front ++ [ct'])
      (fun ct hct => hnum ct (List.mem_cons_of_mem _ hct))
      (fun ct hct => hfile ct (List.mem_cons_of_mem _ hct))
    refine ⟨ct' :: cts', ?_, .cons hrefined hall⟩
    rw [List.length_cons, List.range'_succ, List.foldlM_cons, pass6_step_ok files front htrack]
    rw [List.length_append, List.append_assoc, List.append_assoc] at hloop
    exact hloop

/-- A lead track keeps its indexes, or they have no length. -/
structure Track.Pointed (ct ct' : Track F) : Prop where
  point : ct'.point = ct.point
  max_index : ct'.max_index = ct.max_index
  idx : ∀ j ∈ ct.indexes, ct'.idx j = ct.idx j ∨
    (ct'.idx j).type = INDEX_ZERO ∧ (ct'.idx j).length = 0

theorem pointTo_pointed (ct lt : Track F) (start : BitVec 64) :
    ct.Pointed (ct.pointTo lt start) := by
  refine ⟨rfl, rfl, fun j hj => .inr ?_⟩
  have hle : j.val ≤ ct.max_index.toNat := by
    have := (List.mem_filter.mp hj).2
    exact of_decide_eq_true this
  unfold Track.pointTo
  dsimp only
  rw [if_pos hle]
  exact ⟨rfl, rfl⟩

theorem pointed_refl (ct : Track F) : ct.Pointed ct := ⟨rfl, rfl, fun _ _ => .inl rfl⟩

theorem pass6_first (d : DiscCursor) (tracks : List (Track F)) (h : a.point = 0xa0) :
    ∃ a', pass6_track files d tracks a = .ok a' ∧ a.Pointed a' := by
  have hnum : a.isNumbered = false := isNumbered_false (by rw [h]; decide)
  unfold pass6_track
  rw [hnum, h]
  simp only [Bool.false_eq_true, if_false, if_true]
  split
  · exact ⟨a, rfl, pointed_refl a⟩
  · exact ⟨_, rfl, pointTo_pointed a _ _⟩

theorem pass6_last (d : DiscCursor) (tracks : List (Track F)) (h : b.point = 0xa1) :
    ∃ b', pass6_track files d tracks b = .ok b' ∧ b.Pointed b' := by
  have hnum : b.isNumbered = false := isNumbered_false (by rw [h]; decide)
  unfold pass6_track
  rw [hnum, h]
  simp only [Bool.false_eq_true, if_false, if_true,
    show ((0xa1 : BitVec 8) = 0xa0) = False by decide]
  split
  · exact ⟨b, rfl, pointed_refl b⟩
  · exact ⟨_, rfl, pointTo_pointed b _ _⟩

/-- The lead-out is where the sheet has it, or after the last track. -/
inductive LeadOut (c c' : Track F) (stop : BitVec 64) : Prop
  | present (htype : (c.idx 1).type = INDEX_NORMAL) (hrefined : c.Refined c')
  | after (htype : (c.idx 1).type ≠ INDEX_NORMAL) (hpointed : c.Pointed c')
      (hstart : (c'.idx 1).start = stop ∧ (c'.idx 1).length = 0)

theorem pass6_leadOut {d : DiscCursor} {tracks : List (Track F)} {lt : Track F}
    (h : c.point = 0xa2) (hls : d.ls = c.session)
    (hfind : tracks.reverse.find? (Track.isOf c.session) = some lt)
    (hmax : lt.max_index.toNat < 100) (hone : 1 ≤ c.max_index.toNat) :
    ∃ c', pass6_track files d tracks c = .ok c' ∧
      LeadOut c c' (lt.idx ⟨lt.max_index.toNat, hmax⟩).stop := by
  have hnum : c.isNumbered = false := isNumbered_false (by rw [h]; decide)
  have hlo : lo tracks d.ls c.session = some lt := by
    unfold lo
    rw [hls, if_pos (BitVec.le_refl _)]
    exact hfind
  have hlast : lt.lastIndex = .ok (lt.idx ⟨lt.max_index.toNat, hmax⟩) := dif_pos hmax
  unfold pass6_track
  rw [hnum, h, hlo]
  simp only [Bool.false_eq_true, if_false, if_true,
    show ((0xa2 : BitVec 8) = 0xa0) = False by decide,
    show ((0xa2 : BitVec 8) = 0xa1) = False by decide]
  by_cases htype : (c.idx 1).type = INDEX_NORMAL
  · rw [if_neg (not_not.mpr htype)]
    exact ⟨_, rfl, .present htype ⟨rfl, h.symm, rfl, rfl, rfl⟩⟩
  · rw [if_pos htype, hlast]
    refine ⟨_, rfl, .after htype (pointTo_pointed c lt _) ?_⟩
    have hidx : (1 : Fin 100).val ≤ c.max_index.toNat := hone
    unfold Track.pointTo
    dsimp only
    rw [if_pos hidx]
    exact ⟨rfl, rfl⟩

theorem pass6_disc {d : DiscCursor} {front : List (Track F)} {lt : Track F} (hleads : Leads a b c)
    (hcts : cts = front ++ [lt]) (hnum : ∀ ct ∈ cts, ct.isNumbered = true)
    (hfile : ∀ ct ∈ cts, (ct.idx 1).type = INDEX_NORMAL → (ct.idx 1).file ≠ none)
    (hls : d.ls = c.session) (hlt : lt.session = c.session) (hmax : lt.max_index.toNat < 100)
    (hone : 1 ≤ c.max_index.toNat) :
    ∃ a' b' c' cts', (List.range (disc a b c cts).length).foldlM (pass6_step files d)
        (disc a b c cts) = .ok (disc a' b' c' cts') ∧ a.Pointed a' ∧ b.Pointed b' ∧
      LeadOut c c' (lt.idx ⟨lt.max_index.toNat, hmax⟩).stop ∧
      List.Forall₂ Track.Refined cts cts' := by
  obtain ⟨a', ha, hpa⟩ := pass6_first files d (disc a b c cts) hleads.first
  obtain ⟨b', hb, hpb⟩ := pass6_last files d (disc a' b c cts) hleads.last
  have hfind : (disc a' b' c cts).reverse.find? (Track.isOf c.session) = some lt := by
    have hisOf : Track.isOf c.session lt = true := by
      unfold Track.isOf
      rw [hnum lt (by rw [hcts]; exact List.mem_append_right _ List.mem_cons_self),
        decide_eq_true hlt]
      rfl
    have hdisc : disc a' b' c cts = (a' :: b' :: c :: front) ++ [lt] := by
      rw [hcts]
      rfl
    rw [hdisc, List.reverse_append]
    exact List.find?_cons_of_pos hisOf
  obtain ⟨c', hc, hpc⟩ := pass6_leadOut files hleads.leadOut hls hfind hmax hone
  obtain ⟨cts', hloop, hrefined⟩ := pass6_tracks files d cts [a', b', c'] hnum hfile
  refine ⟨a', b', c', cts', ?_, hpa, hpb, hpc, hrefined⟩
  rw [disc_range, List.foldlM_append, List.foldlM_cons,
    show pass6_step files d (disc a b c cts) 0 = .ok (disc a' b c cts) from
      pass6_step_ok files [] ha]
  change ([1, 2].foldlM (pass6_step files d) (disc a' b c cts) >>= _) = _
  rw [List.foldlM_cons, show pass6_step files d (disc a' b c cts) 1 = .ok (disc a' b' c cts) from
      pass6_step_ok files [a'] hb]
  change ([2].foldlM (pass6_step files d) (disc a' b' c cts) >>= _) = _
  rw [List.foldlM_cons, show pass6_step files d (disc a' b' c cts) 2 = .ok (disc a' b' c' cts) from
      pass6_step_ok files [a', b'] hc]
  exact hloop

end blumach.cdrom_image
