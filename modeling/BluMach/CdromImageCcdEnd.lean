-- What the tracks of a CloneCD image cover. A track that is in the file ends where the next one
-- starts, or at the length of the file as a place on the disc, and the last sector of the file lies
-- 150 sectors beyond that.
import BluMach.CdromImageCcd

namespace blumach.cdrom_image

open IndexType

variable {F : Type}

/-! ## A readable image -/

/-- The table of a disc with one session and the tracks 1 to n, whose starts are in the file. The
last field says that the file's sectors have numbers that `image_get_track` can be given. -/
structure OneSession (index0 : BitVec 8 → Option (BitVec 32)) (length_sect : BitVec 64)
    (rtis : List RawTrackInfo) : Prop where
  session : ∀ r ∈ rtis, r.session = 1
  numbered : ∃ n : Nat, 1 ≤ n ∧
    ((rtis.filter fun r => !r.special_track).map fun r => r.point.toNat).Perm (List.range' 1 n)
  increasing : ∀ r ∈ rtis, ∀ r' ∈ rtis, r.special_track = false → r'.special_track = false →
    r.point < r'.point → r.lba.toNat < r'.lba.toNat
  after : ∀ r ∈ rtis, r.special_track = false → 150 ≤ r.lba.toNat
  contained : ∀ r ∈ rtis, r.special_track = false → r.lba.toNat - 150 < length_sect.toNat
  no_index0 : ∀ r ∈ rtis, index0 r.point = none
  addressable : length_sect.toNat + 150 ≤ 2 ^ 32

/-- The track is in the file and starts last of those that start not above a sector. -/
structure IsTrackOf (tracks : List (Track F)) (s : BitVec 32) (ct : Track F) : Prop where
  normal : (ct.idx 1).type = INDEX_NORMAL
  above : (ct.idx 1).start.toNat ≤ s.toNat + 150
  greatest : ∀ ct' ∈ tracks, (ct'.idx 1).type = INDEX_NORMAL →
    (ct'.idx 1).start.toNat ≤ s.toNat + 150 → (ct'.idx 1).start.toNat ≤ (ct.idx 1).start.toNat

/-- Every sector of the file is mapped to its track, at its own position, and no track reaches past
the end of the file. -/
structure ReadableToTheEnd (length_sect : BitVec 64) (tracks : List (Track F)) : Prop where
  mapped : ∀ s : BitVec 32, s.toNat < length_sect.toNat → ∃ (i : Nat) (ct : Track F),
    image_get_track tracks s = (i : Int) ∧ tracks[i]? = some ct ∧ IsTrackOf tracks s ct ∧
      (ct.idx 1).file_start + ((s + 150).setWidth 64 - (ct.idx 1).start) = s.setWidth 64
  inside : ∀ ct ∈ tracks, (ct.idx 1).type = INDEX_NORMAL →
    (ct.idx 1).file_start.toNat + (ct.idx 1).length.toNat ≤ length_sect.toNat

/-! ## The lists of tracks -/

theorem mem_changeFirst {found : Track F → Bool} {change : Track F → Track F}
    {tracks : List (Track F)} {ct : Track F} (h : ct ∈ changeFirst found change tracks) :
    ct ∈ tracks ∨ ∃ ct' ∈ tracks, found ct' = true ∧ ct = change ct' := by
  induction tracks with
  | nil => cases h
  | cons first tracks ih =>
    rw [changeFirst] at h
    split at h
    · rename_i hfound
      rcases List.mem_cons.mp h with rfl | h
      · exact Or.inr ⟨first, List.mem_cons_self, hfound, rfl⟩
      · exact Or.inl (List.mem_cons_of_mem first h)
    · rcases List.mem_cons.mp h with rfl | h
      · exact Or.inl List.mem_cons_self
      · rcases ih h with h | ⟨ct', hct', hrest⟩
        · exact Or.inl (List.mem_cons_of_mem first h)
        · exact Or.inr ⟨ct', List.mem_cons_of_mem first hct', hrest⟩

theorem modify_last (tracks : List (Track F)) (ct : Track F) (f : Track F → Track F) :
    (tracks ++ [ct]).modify tracks.length f = tracks ++ [f ct] := by
  induction tracks with
  | nil => rfl
  | cons first tracks ih =>
    rw [List.length_cons, List.cons_append, List.modify_succ_cons, ih, List.cons_append]

theorem loadEntry_eq (tf : F) (index0 : BitVec 8 → Option (BitVec 32)) (tracks : List (Track F))
    (rti : RawTrackInfo) : loadEntry tf index0 tracks rti =
      tracks ++ [fillTrack tf index0 rti (blankTrack rti.session rti.point)] := by
  exact modify_last tracks _ _

/-- The search gives the position of a track that has the sector. -/
theorem get_track_has {tracks : List (Track F)} {sector : BitVec 32} {i : Nat}
    (h : image_get_track tracks sector = (i : Int)) :
    ∃ ct, tracks[i]? = some ct ∧ ∃ j ∈ ct.indexes, (ct.idx j).has sector = true := by
  have hall : ∀ (l : List (Track F × Nat)) (ret : Int),
      (l.foldl (fun ret t =>
        if t.1.indexes.any fun j => (t.1.idx j).has sector then (t.2 : Int) else ret) ret = i) →
      ret = (i : Int) ∨ ∃ t ∈ l, t.2 = i ∧ (t.1.indexes.any fun j => (t.1.idx j).has sector) := by
    intro l
    induction l with
    | nil =>
      intro ret hret
      exact Or.inl hret
    | cons t l ih =>
      intro ret hret
      rw [List.foldl_cons] at hret
      rcases ih _ hret with hret | ⟨t', ht', hrest⟩
      · split at hret
        · rename_i hhas
          exact Or.inr ⟨t, List.mem_cons_self, Int.ofNat_inj.mp hret, hhas⟩
        · exact Or.inl hret
      · exact Or.inr ⟨t', List.mem_cons_of_mem t ht', hrest⟩
  rcases hall _ _ h with hneg | ⟨⟨ct, k⟩, hmem, rfl, hany⟩
  · omega
  · obtain ⟨j, hj, hhas⟩ := List.any_eq_true.mp hany
    exact ⟨ct, List.mem_zipIdx_iff_getElem?.mp hmem, j, hj, hhas⟩

/-! ## What a track covers -/

/-- A place on the disc at which a track of the file can end. -/
def IsEnd (length_sect e : BitVec 64) : Prop :=
  e = length_sect ∨ e.toNat < length_sect.toNat + 150

/-- The track is made of an entry of the table. -/
structure MadeOf (rtis : List RawTrackInfo) (ct : Track F) : Prop where
  entry : (ct.idx 1).type = INDEX_NORMAL →
    ∃ r ∈ rtis, r.special_track = false ∧ r.point = ct.point ∧ r.lba = (ct.idx 1).start
  file_start : (ct.idx 1).type = INDEX_NORMAL → (ct.idx 1).file_start = (ct.idx 1).start - 150
  session : ∃ r ∈ rtis, r.session = ct.session
  max_index : ct.max_index = 1

/-- After steps 1 and 2: the index 1 ends at such a place, and there is no index 0. -/
structure Covered (length_sect : BitVec 64) (rtis : List RawTrackInfo) (ct : Track F) : Prop where
  made : MadeOf rtis ct
  one : (ct.idx 1).type = INDEX_NORMAL →
    IsEnd length_sect ((ct.idx 1).start + (ct.idx 1).length)
  zero : (ct.idx 0).type = INDEX_NONE

variable {index0 : BitVec 8 → Option (BitVec 32)} {length_sect : BitVec 64}
  {rtis : List RawTrackInfo}

theorem OneSession.lt (h : OneSession index0 length_sect rtis) {r : RawTrackInfo}
    (hr : r ∈ rtis) (hs : r.special_track = false) : IsEnd length_sect r.lba := by
  have hafter := h.after r hr hs
  have hcontained := h.contained r hr hs
  exact Or.inr (by omega)

/-- Two tracks of the table with one number are one. -/
theorem OneSession.unique (h : OneSession index0 length_sect rtis) {r r' : RawTrackInfo}
    (hr : r ∈ rtis) (hs : r.special_track = false) (hr' : r' ∈ rtis)
    (hs' : r'.special_track = false) (hpoint : r.point = r'.point) : r = r' := by
  obtain ⟨n, -, hperm⟩ := h.numbered
  have hrange : (List.range' 1 n).Nodup := List.nodup_range'
  have hnodup := hperm.nodup_iff.mpr hrange
  have hmem : ∀ {r : RawTrackInfo}, r ∈ rtis → r.special_track = false →
      r ∈ rtis.filter fun r => !r.special_track := by
    intro r hr hs
    exact List.mem_filter.mpr ⟨hr, by rw [hs]; rfl⟩
  exact List.inj_on_of_nodup_map hnodup (hmem hr hs) (hmem hr' hs') (congrArg BitVec.toNat hpoint)

theorem OneSession.has_track (h : OneSession index0 length_sect rtis) :
    ∃ r ∈ rtis, r.special_track = false := by
  obtain ⟨n, hn, hperm⟩ := h.numbered
  have hone : 1 ∈ List.range' 1 n := List.mem_range'_1.mpr ⟨Nat.le_refl 1, by omega⟩
  obtain ⟨r, hr, -⟩ := List.mem_map.mp (hperm.mem_iff.mpr hone)
  obtain ⟨hr, hspecial⟩ := List.mem_filter.mp hr
  exact ⟨r, hr, by simpa using hspecial⟩

theorem fillTrack_idx (tf : F) (rti : RawTrackInfo) (ct : Track F) :
    (fillTrack tf index0 rti ct).idx 1 = index_1 tf rti ∧
      (fillTrack tf index0 rti ct).idx 0 = index_0 tf rti.lba (index0 ct.point) := by
  unfold fillTrack
  exact ⟨by rw [setIdx_of_ne (by decide), setIdx_self], by rw [setIdx_self]⟩

theorem covered_entry (tf : F) (h : OneSession index0 length_sect rtis) {r : RawTrackInfo}
    (hr : r ∈ rtis) :
    Covered length_sect rtis (fillTrack tf index0 r (blankTrack r.session r.point)) := by
  obtain ⟨hone, hzero⟩ := @fillTrack_idx F index0 tf r (blankTrack r.session r.point)
  have hspecial : (index_1 tf r).type = INDEX_NORMAL → r.special_track = false := by
    unfold index_1
    dsimp only
    split
    · intro hne
      cases hne
    · rename_i hoff
      intro _
      exact Bool.eq_false_iff.mpr hoff
  refine ⟨⟨?_, ?_, ⟨r, hr, rfl⟩, rfl⟩, ?_, ?_⟩
  · rw [hone]
    intro hnormal
    exact ⟨r, hr, hspecial hnormal, rfl, rfl⟩
  · rw [hone]
    intro hnormal
    exact if_neg (Bool.eq_false_iff.mp (hspecial hnormal))
  · rw [hone]
    intro hnormal
    have hend := h.lt hr (hspecial hnormal)
    have hsum : (index_1 tf r).start + (index_1 tf r).length = r.lba := BitVec.add_zero _
    rw [hsum]
    exact hend
  · have hnone : index0 (blankTrack r.session r.point : Track F).point = none := h.no_index0 r hr
    rw [hzero, hnone]
    rfl

theorem covered_load (tf : F) (h : OneSession index0 length_sect rtis)
    {some_rtis : List RawTrackInfo} (hsub : ∀ r ∈ some_rtis, r ∈ rtis) {tracks : List (Track F)}
    (ht : ∀ ct ∈ tracks, Covered length_sect rtis ct) :
    ∀ ct ∈ some_rtis.foldl (loadEntry tf index0) tracks, Covered length_sect rtis ct := by
  induction some_rtis generalizing tracks with
  | nil => exact ht
  | cons r some_rtis ih =>
    rw [List.foldl_cons, loadEntry_eq]
    apply ih (fun r' hr' => hsub r' (List.mem_cons_of_mem r hr'))
    intro ct hct
    rcases List.mem_append.mp hct with hct | hct
    · exact ht ct hct
    · rw [List.mem_singleton.mp hct]
      exact covered_entry tf h (hsub r List.mem_cons_self)

/-- The entries that are sorted before the special ones are the tracks. -/
theorem mem_sortRtis {r : RawTrackInfo} (h : r ∈ sortRtis rtis) (hp : ¬r.point > 99) :
    r ∈ rtis ∧ r.special_track = false := by
  obtain ⟨r₀, hr₀, rfl⟩ := List.mem_map.mp ((List.mem_insertionSort _).mp h)
  unfold RawTrackInfo.sortedLast at hp ⊢
  by_cases hadr : r₀.adr_ctl >>> 4 = 5
  · rw [if_pos hadr] at hp
    refine absurd ?_ hp
    have hle : 0xf0 ≤ r₀.point.toNat ||| 0xf0 := Nat.right_le_or
    show (99 : BitVec 8).toNat < (r₀.point ||| 0xf0).toNat
    rw [BitVec.toNat_or]
    exact Nat.lt_of_lt_of_le (by decide) hle
  · rw [if_neg hadr] at hp ⊢
    refine ⟨hr₀, ?_⟩
    rw [RawTrackInfo.special_track, decide_eq_false hp, decide_eq_false hadr]
    rfl

theorem made_of_setIdx {ct : Track F} {j : Fin 100} {ci : TrackIndex F} (h : MadeOf rtis ct)
    (hj : j = 1 → ci.type = (ct.idx 1).type ∧ ci.start = (ct.idx 1).start ∧
      ci.file_start = (ct.idx 1).file_start) :
    MadeOf rtis (ct.setIdx j ci) := by
  have hone : ((ct.setIdx j ci).idx 1).type = (ct.idx 1).type ∧
      ((ct.setIdx j ci).idx 1).start = (ct.idx 1).start ∧
      ((ct.setIdx j ci).idx 1).file_start = (ct.idx 1).file_start := by
    by_cases hj1 : j = 1
    · rw [hj1, setIdx_self]
      exact hj hj1
    · rw [setIdx_of_ne (Ne.symm hj1)]
      exact ⟨rfl, rfl, rfl⟩
  refine ⟨?_, ?_, h.session, h.max_index⟩
  · rw [hone.1, hone.2.1]
    exact h.entry
  · rw [hone.1, hone.2.1, hone.2.2]
    exact h.file_start

theorem covered_length (h : OneSession index0 length_sect rtis) {r : RawTrackInfo}
    (hr : r ∈ rtis) (hs : r.special_track = false) {e : BitVec 64} (he : IsEnd length_sect e)
    {ct : Track F} (hct : Covered length_sect rtis ct) (hpoint : ct.point = r.point) :
    Covered length_sect rtis (setLength (e - r.lba) ct) := by
  refine ⟨made_of_setIdx hct.made (fun _ => ⟨rfl, rfl, rfl⟩), ?_, ?_⟩
  · have hone : (setLength (e - r.lba) ct).idx 1 =
        { ct.idx 1 with length := e - r.lba, file_length := e - r.lba } :=
      setIdx_self ct 1 _
    rw [hone]
    intro hnormal
    obtain ⟨r', hr', hs', hp', hstart⟩ := hct.made.entry hnormal
    have heq := h.unique hr' hs' hr hs (hp'.trans hpoint)
    have hend : (ct.idx 1).start + (e - r.lba) = e := by
      rw [← hstart, heq, BitVec.add_comm, BitVec.sub_add_cancel]
    dsimp only
    rw [hend]
    exact he
  · have hzero : (setLength (e - r.lba) ct).idx 0 = ct.idx 0 :=
      setIdx_of_ne (by decide) ct _
    rw [hzero]
    exact hct.zero

theorem covered_lengths (h : OneSession index0 length_sect rtis) {sorted : List RawTrackInfo}
    (hsub : ∀ r ∈ sorted, r ∈ sortRtis rtis) {tracks : List (Track F)}
    (ht : ∀ ct ∈ tracks, Covered length_sect rtis ct) :
    ∀ ct ∈ calculateLengths length_sect sorted tracks, Covered length_sect rtis ct := by
  induction sorted generalizing tracks with
  | nil => exact ht
  | cons r sorted ih =>
    rw [calculateLengths]
    by_cases hp : r.point > 99
    · rw [if_pos hp]
      exact ht
    · rw [if_neg hp]
      obtain ⟨hr, hs⟩ := mem_sortRtis (hsub r List.mem_cons_self) hp
      have hlength : ∃ e, IsEnd length_sect e ∧
          trackLength length_sect r sorted.head? = e - r.lba := by
        cases hnext : sorted.head? with
        | none => exact ⟨length_sect, Or.inl rfl, rfl⟩
        | some next =>
          rw [trackLength]
          by_cases hlast : next.point > 99
          · rw [if_pos hlast]
            exact ⟨length_sect, Or.inl rfl, rfl⟩
          · rw [if_neg hlast]
            have hmem := hsub next (List.mem_cons_of_mem r (List.mem_of_mem_head? hnext))
            obtain ⟨hr', hs'⟩ := mem_sortRtis hmem hlast
            exact ⟨next.lba, h.lt hr' hs', rfl⟩
      obtain ⟨e, he, hlength⟩ := hlength
      dsimp only
      rw [hlength]
      apply ih (fun r' hr' => hsub r' (List.mem_cons_of_mem r hr'))
      intro ct hct
      rcases mem_changeFirst hct with hct | ⟨ct', hct', hfound, rfl⟩
      · exact ht ct hct
      · exact covered_length h hr hs he (ht ct' hct') (of_decide_eq_true hfound)

/-! ## The pre-gap -/

/-- The index 0 can be the pre-gap before the index 1. -/
structure Spaced (length_sect : BitVec 64) (rtis : List RawTrackInfo) (ct : Track F) : Prop where
  made : MadeOf rtis ct
  one : (ct.idx 1).type = INDEX_NORMAL →
    IsEnd length_sect ((ct.idx 1).start + (ct.idx 1).length)
  zero : (ct.idx 0).type = INDEX_NONE ∨
    (ct.idx 0).start + 150 = (ct.idx 1).start ∧ (ct.idx 0).length = 150

/-- After step 3: the index 1 can end 150 sectors before. -/
structure Ended (length_sect : BitVec 64) (rtis : List RawTrackInfo) (ct : Track F) : Prop where
  made : MadeOf rtis ct
  one : (ct.idx 1).type = INDEX_NORMAL → ∃ e, IsEnd length_sect e ∧
    ((ct.idx 1).start + (ct.idx 1).length = e ∨ (ct.idx 1).start + (ct.idx 1).length = e - 150)
  zero : (ct.idx 0).type = INDEX_NONE ∨
    (ct.idx 0).start + 150 = (ct.idx 1).start ∧ (ct.idx 0).length = 150

theorem Covered.spaced {ct : Track F} (h : Covered length_sect rtis ct) :
    Spaced length_sect rtis ct :=
  ⟨h.made, h.one, Or.inl h.zero⟩

theorem Spaced.ended {ct : Track F} (h : Spaced length_sect rtis ct) : Ended length_sect rtis ct :=
  ⟨h.made, fun hnormal => ⟨_, h.one hnormal, Or.inl rfl⟩, h.zero⟩

theorem spaced_pregap {ct : Track F} (h : Covered length_sect rtis ct) {ci : TrackIndex F}
    (hstart : ci.start = (ct.idx 1).start - 150) (hlength : ci.length = 150) :
    Spaced length_sect rtis (ct.setIdx 0 ci) := by
  have hone : (ct.setIdx 0 ci).idx 1 = ct.idx 1 := setIdx_of_ne (by decide) ct ci
  refine ⟨made_of_setIdx h.made (fun h0 => absurd h0 (by decide)), ?_, Or.inr ?_⟩
  · rw [hone]
    exact h.one
  · rw [hone, setIdx_self, hstart]
    exact ⟨BitVec.sub_add_cancel _ _, hlength⟩

theorem ended_reduce {ct : Track F} (h : Spaced length_sect rtis ct) :
    Ended length_sect rtis (reduceLength ct) := by
  unfold reduceLength
  refine ⟨made_of_setIdx h.made (fun _ => ⟨rfl, rfl, rfl⟩), ?_, ?_⟩
  · rw [setIdx_self]
    intro hnormal
    refine ⟨_, h.one hnormal, Or.inr ?_⟩
    dsimp only
    rw [BitVec.sub_eq_add_neg, BitVec.sub_eq_add_neg, BitVec.add_assoc]
  · rw [setIdx_self, setIdx_of_ne (by decide)]
    exact h.zero

theorem spaced_set {tracks : List (Track F)} (ht : ∀ ct ∈ tracks, Covered length_sect rtis ct)
    {j : Nat} {ct : Track F} (hct : Spaced length_sect rtis ct) :
    ∀ ct' ∈ tracks.set j ct, Spaced length_sect rtis ct' := by
  intro ct' hct'
  rcases List.mem_or_eq_of_mem_set hct' with hct' | rfl
  · exact (ht ct' hct').spaced
  · exact hct

/-- One pre-gap reduces the length of at most one track. -/
theorem ended_generate {tracks : List (Track F)}
    (ht : ∀ ct ∈ tracks, Covered length_sect rtis ct) (j : Nat) {ct : Track F} (hct : ct ∈ tracks) :
    ∀ ct' ∈ generatePregap j ct tracks, Ended length_sect rtis ct' := by
  intro ct' hct'
  unfold generatePregap at hct'
  dsimp only at hct'
  split at hct'
  · exact (ht ct' hct').spaced.ended
  · split at hct'
    · exact (spaced_set ht (spaced_pregap (ht ct hct) rfl rfl) ct' hct').ended
    · have hpregap : Spaced length_sect rtis (ct.setIdx 0 { ct.idx 1 with
          start := (ct.idx 1).start - 150
          length := 150
          file_length := 150
          file_start := (ct.idx 1).file_start - ((ct.idx 1).start - 150 - 150) }) :=
        spaced_pregap (ht ct hct) rfl rfl
      have hset := spaced_set (j := j) ht hpregap
      rcases mem_changeFirst hct' with hct' | ⟨ct₀, hct₀, -, rfl⟩
      · exact (hset ct' hct').ended
      · exact ended_reduce (hset ct₀ hct₀)

/-- The session 1 is the only one that has tracks. -/
theorem generatePregaps_eq (h : OneSession index0 length_sect rtis) {tracks : List (Track F)}
    (ht : ∀ ct ∈ tracks, MadeOf rtis ct) : ∀ left, left ≤ 254 →
      generatePregaps left tracks = tracks := by
  intro left hleft
  cases left with
  | zero => rfl
  | succ left =>
    have hnone : tracks.findIdx? (isOfSession (255 - left)) = none := by
      apply List.findIdx?_eq_none_iff.mpr
      intro ct hct
      obtain ⟨r, hr, hsession⟩ := (ht ct hct).session
      have hone : ct.session.toNat = 1 := by
        rw [← hsession, h.session r hr]
        rfl
      rw [isOfSession, hone, decide_eq_false (by omega)]
      rfl
    rw [generatePregaps, hnone]

theorem ended_load (tf : F) {length : BitVec 64}
    (h : OneSession index0 (length / 2352) rtis) :
    ∀ ct ∈ image_load_ccd tf length index0 rtis, Ended (length / 2352) rtis ct := by
  have hload := covered_load tf h (fun r hr => hr)
    (fun (ct : Track F) (hct : ct ∈ []) => absurd hct List.not_mem_nil)
  have hlengths := covered_lengths h (fun r hr => hr) hload
  unfold image_load_ccd
  dsimp only
  generalize calculateLengths _ _ _ = tracks at hlengths ⊢
  have hall : ∀ ct ∈ tracks, Ended (length / 2352) rtis ct :=
    fun ct hct => (hlengths ct hct).spaced.ended
  rw [generatePregaps]
  cases tracks.findIdx? (isOfSession (255 - 254)) with
  | none => exact hall
  | some j =>
    dsimp only
    cases hj : tracks[j]? with
    | none => exact hall
    | some ct =>
      have hended := ended_generate hlengths j (List.mem_of_getElem? hj)
      dsimp only
      rw [generatePregaps_eq h (fun ct' hct' => (hended ct' hct').made) 254 (Nat.le_refl 254)]
      exact hended

/-! ## The last sector -/

theorem has_bounds {ci : TrackIndex F} {s : BitVec 32} (h : ci.has s = true) :
    (ci.type = INDEX_ZERO ∨ ci.type = INDEX_NORMAL) ∧ ci.length ≠ 0 ∧
      ci.start.toNat ≤ (s + 150).toNat ∧ (s + 150).toNat ≤ (ci.start + ci.length - 1).toNat := by
  have hwidth : ((s + 150).setWidth 64).toNat = (s + 150).toNat :=
    BitVec.toNat_setWidth_of_le (by decide)
  unfold TrackIndex.has at h
  simp only [Bool.and_eq_true, Bool.or_eq_true, decide_eq_true_eq, ge_iff_le, BitVec.le_def,
    hwidth] at h
  exact ⟨h.1.1.1, h.1.1.2, h.1.2, h.2⟩

/-- A track that lies in the file has not its last sector. -/
theorem misses_last (h : OneSession index0 length_sect rtis) {ct : Track F}
    (hct : Ended length_sect rtis ct) (hnormal : (ct.idx 1).type = INDEX_NORMAL)
    (hinside : (ct.idx 1).file_start.toNat + (ct.idx 1).length.toNat ≤ length_sect.toNat)
    {s : BitVec 32} (hs : (s + 150).toNat = length_sect.toNat + 149) :
    (ct.idx 1).has s = false := by
  obtain ⟨r, hr, hspecial, -, hstart⟩ := hct.made.entry hnormal
  have hafter := h.after r hr hspecial
  have hcontained := h.contained r hr hspecial
  have haddressable := h.addressable
  rw [hstart] at hafter hcontained
  have hfile : (ct.idx 1).file_start.toNat = (ct.idx 1).start.toNat - 150 := by
    rw [hct.made.file_start hnormal]
    exact BitVec.toNat_sub_of_le hafter
  have hsum : ((ct.idx 1).start + (ct.idx 1).length).toNat =
      (ct.idx 1).start.toNat + (ct.idx 1).length.toNat :=
    BitVec.toNat_add_of_lt (by omega)
  by_contra hhas
  obtain ⟨-, -, -, hlast⟩ := has_bounds (Bool.not_eq_false _ ▸ hhas)
  have hend : ((ct.idx 1).start + (ct.idx 1).length).toNat = length_sect.toNat + 150 := by
    have hsub : ((ct.idx 1).start + (ct.idx 1).length - 1).toNat =
        ((ct.idx 1).start + (ct.idx 1).length).toNat - 1 :=
      BitVec.toNat_sub_of_le (by rw [BitVec.le_def, hsum]; show 1 ≤ _; omega)
    omega
  obtain ⟨e, he, hend' | hend'⟩ := hct.one hnormal
  · rw [hend'] at hend
    rcases he with rfl | he
    · omega
    · omega
  · have hback : e.toNat = length_sect.toNat + 300 := by
      have hadd : e = (ct.idx 1).start + (ct.idx 1).length + 150 := by
        rw [hend', BitVec.sub_add_cancel]
      rw [hadd, BitVec.toNat_add, hend]
      show (length_sect.toNat + 150 + 150) % 2 ^ 64 = _
      omega
    rcases he with rfl | he
    · omega
    · omega

/-- The pre-gap of a track lies below its start. -/
theorem misses_below (h : OneSession index0 length_sect rtis) {ct : Track F}
    (hct : Ended length_sect rtis ct) (hnormal : (ct.idx 1).type = INDEX_NORMAL) {s : BitVec 32}
    (habove : (ct.idx 1).start.toNat ≤ (s + 150).toNat) : (ct.idx 0).has s = false := by
  obtain ⟨r, hr, hspecial, -, hstart⟩ := hct.made.entry hnormal
  have hafter := h.after r hr hspecial
  rw [hstart] at hafter
  by_contra hhas
  obtain ⟨htype, -, -, hlast⟩ := has_bounds (Bool.not_eq_false _ ▸ hhas)
  rcases hct.zero with hnone | ⟨hspaced, hlength⟩
  · rw [hnone] at htype
    rcases htype with htype | htype
    · cases htype
    · cases htype
  · rw [hlength, hspaced] at hlast
    have hsub : ((ct.idx 1).start - 1).toNat = (ct.idx 1).start.toNat - 1 :=
      BitVec.toNat_sub_of_le (by rw [BitVec.le_def]; show 1 ≤ _; omega)
    omega

/-- No image of a disc with one session is readable to its last sector. -/
theorem load_misses_the_end (tf : F) (length : BitVec 64)
    (h : OneSession index0 (length / 2352) rtis) :
    ¬ReadableToTheEnd (length / 2352) (image_load_ccd tf length index0 rtis) := by
  have hall := ended_load tf h
  intro hreadable
  have hpos : 1 ≤ (length / 2352).toNat := by
    obtain ⟨r, hr, hspecial⟩ := h.has_track
    have hcontained := h.contained r hr hspecial
    omega
  have haddressable := h.addressable
  have hlast : (BitVec.ofNat 32 ((length / 2352).toNat - 1)).toNat = (length / 2352).toNat - 1 := by
    rw [BitVec.toNat_ofNat]
    omega
  generalize BitVec.ofNat 32 ((length / 2352).toNat - 1) = s at hlast
  have hplace : (s + 150).toNat = (length / 2352).toNat + 149 := by
    rw [BitVec.toNat_add, hlast]
    show ((length / 2352).toNat - 1 + 150) % 2 ^ 32 = _
    omega
  obtain ⟨i, ct, hget, hct, htrack, -⟩ := hreadable.mapped s (by omega)
  obtain ⟨ct', hct', j, hj, hhas⟩ := get_track_has hget
  obtain rfl := Option.some.inj (hct.symm.trans hct')
  have hended := hall ct (List.mem_of_getElem? hct)
  have hinside := hreadable.inside ct (List.mem_of_getElem? hct) htrack.normal
  have hle : j.val ≤ 1 := by
    have hmax := of_decide_eq_true (List.mem_filter.mp hj).2
    rw [hended.made.max_index] at hmax
    exact hmax
  have hj : j = 0 ∨ j = 1 := by
    rcases Nat.le_one_iff_eq_zero_or_eq_one.mp hle with h0 | h1
    · exact Or.inl (Fin.ext h0)
    · exact Or.inr (Fin.ext h1)
  rcases hj with rfl | rfl
  · have habove : (ct.idx 1).start.toNat ≤ (s + 150).toNat := by
      have hstart := htrack.above
      omega
    rw [misses_below h hended htrack.normal habove] at hhas
    cases hhas
  · rw [misses_last h hended htrack.normal hinside hplace] at hhas
    cases hhas

/-- A data track and an audio track, at 00:02:00 and 00:04:50, after the pointers A0h to A2h. -/
def dataAndAudio : List RawTrackInfo :=
  [⟨1, 0x14, 0xa0, 0, 0, 0, 0, 1, 0, 0⟩, ⟨1, 0x14, 0xa1, 0, 0, 0, 0, 2, 0, 0⟩,
    ⟨1, 0x14, 0xa2, 0, 0, 0, 0, 0, 7, 25⟩, ⟨1, 0x14, 0x01, 0, 0, 0, 0, 0, 2, 0⟩,
    ⟨1, 0x10, 0x02, 0, 0, 0, 0, 0, 4, 50⟩]

/-- The file has 400 sectors. -/
theorem dataAndAudio_one_session : OneSession (fun _ => none) (940800 / 2352) dataAndAudio where
  session := by decide
  numbered := ⟨2, by decide, by decide⟩
  increasing := by decide
  after := by decide
  contained := by decide
  no_index0 := fun _ _ => rfl
  addressable := by decide

theorem two_tracks_miss_the_end :
    ¬ReadableToTheEnd (940800 / 2352) (image_load_ccd () 940800 (fun _ => none) dataAndAudio) :=
  load_misses_the_end () 940800 dataAndAudio_one_session

/-- Sector 399 is on no track. -/
theorem sector_399_is_not_mapped :
    ¬∀ (tf : Unit) (length : BitVec 64) (index0 : BitVec 8 → Option (BitVec 32))
      (rtis : List RawTrackInfo), OneSession index0 (length / 2352) rtis →
      ReadableToTheEnd (length / 2352) (image_load_ccd tf length index0 rtis) := by
  intro hall
  have hreadable := hall () 940800 (fun _ => none) dataAndAudio dataAndAudio_one_session
  obtain ⟨i, -, hget, -⟩ := hreadable.mapped 399 (by decide)
  have hnone :
      image_get_track (image_load_ccd () 940800 (fun _ => none) dataAndAudio) 399 = -1 := by
    decide +kernel
  omega

end blumach.cdrom_image
