-- The layout of a disc that `image_process` computes from a session: the parts of each file, the
-- parts of the disc, and the sectors that are found in them.
import BluMach.CdromImagePasses
import BluMach.Tiling

namespace blumach.cdrom_image

open IndexType in_place tiling

variable {F : Type} (files : Files F)

/-! ## What the sheet says of the files -/

/-- The index is present in the file. -/
def Entry.isIn [DecidableEq F] (f : F) (e : Entry F) : Bool :=
  decide (e.index.type = INDEX_NORMAL) && decide (e.index.file = some f)

/-- The sectors of a file, in the sector size of the track. -/
def Entry.total (f : F) (e : Entry F) : Nat := (files.get_length f).toNat / e.size.toNat

/-- The part of its file that an index has. -/
def Entry.inFile (e : Entry F) : Extent := (e.index.file_start.toNat, e.index.file_length.toNat)

/-- The files that the indexes name, in their order. -/
def named (es : List (Entry F)) : List F := es.filterMap fun e => e.index.file

/-- The indexes that are present in a file have positions that do not decrease within it and lie
within its length, and the tracks of a file have one sector size. -/
structure Ordered [DecidableEq F] (es : List (Entry F)) : Prop where
  present : ∀ e ∈ es, e.index.type = INDEX_NORMAL → ∃ f, e.index.file = some f ∧
    0 ≤ e.index.file_start.toInt ∧ e.index.file_start.toNat ≤ e.total files f
  ascending : es.Pairwise fun d e => ∀ f, d.isIn f = true → e.isIn f = true →
    d.index.file_start.toNat ≤ e.index.file_start.toNat
  sizes : es.Pairwise fun d e => ∀ f, d.isIn f = true → e.index.file = some f → d.size = e.size
  sized : ∀ e ∈ es, e.index.file ≠ none → e.size ≠ 0

/-- The parts of every file, from its first index to its end. -/
def FilesTile [DecidableEq F] (es : List (Entry F)) : Prop :=
  ∀ f e rest, es.filter (Entry.isIn f) = e :: rest →
    Tiles e.index.file_start.toNat ((e :: rest).map Entry.inFile) (e.total files f)

variable {files}

theorem isIn_iff [DecidableEq F] {f : F} {e : Entry F} :
    e.isIn f = true ↔ e.index.type = INDEX_NORMAL ∧ e.index.file = some f := by
  unfold Entry.isIn
  rw [Bool.and_eq_true, decide_eq_true_iff, decide_eq_true_iff]

theorem mem_named {es : List (Entry F)} {f : F} :
    f ∈ named es ↔ ∃ e ∈ es, e.index.file = some f := List.mem_filterMap

theorem Ordered.tail [DecidableEq F] {e : Entry F} {es : List (Entry F)}
    (h : Ordered files (e :: es)) :
    Ordered files es where
  present d hd := h.present d (List.mem_cons_of_mem e hd)
  ascending := (List.pairwise_cons.mp h.ascending).2
  sizes := (List.pairwise_cons.mp h.sizes).2
  sized d hd := h.sized d (List.mem_cons_of_mem e hd)

/-! ## One index of pass 3 -/

/-- What pass 3 leaves of an index. -/
structure Entry.Kept (e e' : Entry F) : Prop where
  size : e'.size = e.size
  type : e'.index.type = e.index.type
  file : e'.index.file = e.index.file
  start : e'.index.start = e.index.start
  length : e'.index.length = e.index.length
  file_start : e.index.type = INDEX_NORMAL → e'.index.file_start = e.index.file_start

theorem Entry.Kept.isIn [DecidableEq F] {e e' : Entry F} (h : e.Kept e') (f : F) :
    e'.isIn f = e.isIn f := by
  unfold Entry.isIn
  rw [h.type, h.file]

theorem Entry.Kept.total {e e' : Entry F} (h : e.Kept e') (f : F) :
    e'.total files f = e.total files f := by
  unfold Entry.total
  rw [h.size]

/-- An index that lies within its file, or that no file has. -/
def Entry.Within (e : Entry F) : Prop :=
  e.index.type = INDEX_NORMAL → 0 ≤ e.index.file_start.toInt

theorem fromBefore_eq {e : Entry F} (h : e.Within) : fromBefore e.index = e.index := by
  unfold fromBefore
  rw [if_neg]
  rintro ⟨htype, hneg⟩
  have := h htype
  omega

variable [DecidableEq F]

/-- An index that no file has takes nothing. -/
theorem pass3_absent {c c₁ c' : FileCursor F} {e e' : Entry F} (hwithin : e.Within)
    (htype : e.index.type ≠ INDEX_NORMAL) (hopen : openFile files e.size c e.index = .ok c₁)
    (h : pass3_entry files c e = .ok (c', e')) : c' = c₁ ∧ e.Kept e' := by
  unfold pass3_entry at h
  rw [pass3_index_eq files hopen, fromBefore_eq hwithin] at h
  unfold takeLength at h
  rw [if_neg htype] at h
  cases h
  exact ⟨rfl, rfl, rfl, rfl, rfl, rfl, fun hnormal => absurd hnormal htype⟩

/-- An index that is present takes what is left. -/
theorem pass3_present {c c₁ c' : FileCursor F} {e e' : Entry F} (hwithin : e.Within)
    (htype : e.index.type = INDEX_NORMAL) (hopen : openFile files e.size c e.index = .ok c₁)
    (hle : e.index.file_start.toNat ≤ c₁.tf_len.toNat)
    (h : pass3_entry files c e = .ok (c', e')) :
    c'.tf = c₁.tf ∧ c'.tf_len = e.index.file_start ∧ e.Kept e' ∧
      e.index.file_start.toNat + e'.index.file_length.toNat = c₁.tf_len.toNat := by
  unfold pass3_entry at h
  rw [pass3_index_eq files hopen, fromBefore_eq hwithin] at h
  unfold takeLength at h
  rw [if_pos htype] at h
  cases h
  refine ⟨rfl, ?_, ⟨rfl, rfl, rfl, rfl, rfl, fun _ => rfl⟩, ?_⟩
  · exact sub_sub_cancel c₁.tf_len e.index.file_start
  · rw [BitVec.toNat_sub_of_le hle]
    omega

/-! ## A walk of pass 3, from the last index -/

/-- What pass 3 has made of the indexes from one on. -/
structure Filled (files : Files F) (es ys : List (Entry F)) (c : FileCursor F) : Prop where
  tf : c.tf = (named es).head?
  kept : List.Forall₂ Entry.Kept es ys
  left : ∀ f, c.tf = some f → ∃ d ∈ es, d.index.file = some f ∧
    Tiles c.tf_len.toNat ((ys.filter (Entry.isIn f)).map Entry.inFile) (d.total files f)
  tiles : FilesTile files ys

theorem filter_unnamed {es ys : List (Entry F)} (h : List.Forall₂ Entry.Kept es ys) {f : F}
    (hf : f ∉ named es) : ys.filter (Entry.isIn f) = [] := by
  refine List.filter_eq_nil_iff.mpr fun y hy hin => hf ?_
  obtain ⟨e, he, hkept⟩ := forall₂_mem h hy
  rw [hkept.isIn] at hin
  exact mem_named.mpr ⟨e, he, (isIn_iff.mp hin).2⟩

omit [DecidableEq F] in
theorem total_eq {f : F} {e : Entry F} :
    (files.get_length f / e.size.setWidth 64).toNat = e.total files f := by
  unfold Entry.total
  rw [BitVec.toNat_udiv, BitVec.toNat_setWidth, Nat.mod_eq_of_lt (by omega)]

variable {es ys : List (Entry F)} {c c₁ c' : FileCursor F} {e y : Entry F} {f : F}

/-- When an index names a file, the parts of the file from there on go to its end. -/
theorem Filled.opened (h : Filled files es ys c) (hfile : e.index.file = some f)
    (htogether : f ∈ named es → (named es).head? = some f)
    (hopen : openFile files e.size c e.index = .ok c₁) :
    c₁.tf = some f ∧ ∃ d ∈ e :: es, d.index.file = some f ∧
      Tiles c₁.tf_len.toNat ((ys.filter (Entry.isIn f)).map Entry.inFile) (d.total files f) := by
  unfold openFile at hopen
  rw [hfile] at hopen
  dsimp only at hopen
  split_ifs at hopen with htf hsize
  · cases hopen
    obtain ⟨d, hd, hdf, htiles⟩ := h.left f htf
    exact ⟨htf, d, List.mem_cons_of_mem e hd, hdf, htiles⟩
  · cases hopen
    -- the file is not named again, or it would be the one that the pass is in
    have hnew : f ∉ named es := fun hmem => htf (h.tf.trans (htogether hmem))
    refine ⟨rfl, e, List.mem_cons_self, hfile, ?_⟩
    rw [filter_unnamed h.kept hnew, total_eq]
    exact .nil

/-- An index that is present starts where something is left. -/
theorem Filled.room (h : Filled files es ys c) (ho : Ordered files (e :: es))
    (hin : e.isIn f = true) {d : Entry F} (hd : d ∈ e :: es) (hdf : d.index.file = some f)
    {left : Nat}
    (htiles : Tiles left ((ys.filter (Entry.isIn f)).map Entry.inFile) (d.total files f)) :
    e.total files f = d.total files f ∧ e.index.file_start.toNat ≤ left := by
  obtain ⟨htype, hfile⟩ := isIn_iff.mp hin
  have htotal : e.total files f = d.total files f := by
    rcases List.mem_cons.mp hd with rfl | hd
    · rfl
    · unfold Entry.total
      rw [(List.pairwise_cons.mp ho.sizes).1 d hd f hin hdf]
  refine ⟨htotal, ?_⟩
  cases hys : ys.filter (Entry.isIn f) with
  | nil =>
    rw [hys] at htiles
    cases htiles
    obtain ⟨g, hg, -, hle⟩ := ho.present e List.mem_cons_self htype
    obtain rfl : f = g := Option.some.inj (hfile.symm.trans hg)
    rw [← htotal]
    exact hle
  | cons y rest =>
    have hy : y ∈ ys.filter (Entry.isIn f) := by
      rw [hys]
      exact List.mem_cons_self
    obtain ⟨hmem, hyin⟩ := List.mem_filter.mp hy
    obtain ⟨e', he', hkept⟩ := forall₂_mem h.kept hmem
    rw [hkept.isIn] at hyin
    have hle := (List.pairwise_cons.mp ho.ascending).1 e' he' f hin hyin
    rw [← hkept.file_start (isIn_iff.mp hyin).1] at hle
    rw [hys] at htiles
    cases htiles
    exact hle

theorem pass3_opens (h : pass3_entry files c e = .ok (c', y)) :
    ∃ c₁, openFile files e.size c e.index = .ok c₁ := by
  cases hopen : openFile files e.size c e.index with
  | ok c₁ => exact ⟨c₁, rfl⟩
  | error err =>
    unfold pass3_entry pass3_index at h
    rw [hopen] at h
    cases h

omit [DecidableEq F] in
theorem named_cons_none (h : e.index.file = none) : named (e :: es) = named es :=
  List.filterMap_cons_none h

omit [DecidableEq F] in
theorem named_cons_some (h : e.index.file = some f) : named (e :: es) = f :: named es :=
  List.filterMap_cons_some h

theorem filter_absent (hkept : e.Kept y) (htype : e.index.type ≠ INDEX_NORMAL) (f : F) :
    (y :: ys).filter (Entry.isIn f) = ys.filter (Entry.isIn f) := by
  refine List.filter_cons_of_neg fun hin => htype ?_
  rw [hkept.isIn] at hin
  exact (isIn_iff.mp hin).1

theorem FilesTile.absent (h : FilesTile files ys) (hkept : e.Kept y)
    (htype : e.index.type ≠ INDEX_NORMAL) : FilesTile files (y :: ys) := by
  intro f d rest hfilter
  rw [filter_absent hkept htype] at hfilter
  exact h f d rest hfilter

theorem Ordered.within (h : Ordered files (e :: es)) : e.Within := by
  intro htype
  obtain ⟨_, _, hle, _⟩ := h.present e List.mem_cons_self htype
  exact hle

/-- An index without a file. -/
theorem Filled.unnamed (h : Filled files es ys c) (ho : Ordered files (e :: es))
    (hfile : e.index.file = none) (hstep : pass3_entry files c e = .ok (c', y)) :
    Filled files (e :: es) (y :: ys) c' := by
  have htype : e.index.type ≠ INDEX_NORMAL := by
    intro htype
    obtain ⟨f, hf, -⟩ := ho.present e List.mem_cons_self htype
    rw [hfile] at hf
    cases hf
  have hopen : openFile files e.size c e.index = .ok c := by
    unfold openFile
    rw [hfile]
  obtain ⟨rfl, hkept⟩ := pass3_absent ho.within htype hopen hstep
  refine ⟨?_, .cons hkept h.kept, fun f hf => ?_, h.tiles.absent hkept htype⟩
  · rw [named_cons_none hfile]
    exact h.tf
  · obtain ⟨d, hd, hdf, htiles⟩ := h.left f hf
    rw [filter_absent hkept htype]
    exact ⟨d, List.mem_cons_of_mem e hd, hdf, htiles⟩

/-- An index that names a file. -/
theorem Filled.names (h : Filled files es ys c) (ho : Ordered files (e :: es))
    (htogether : f ∈ named es → (named es).head? = some f) (hfile : e.index.file = some f)
    (hstep : pass3_entry files c e = .ok (c', y)) : Filled files (e :: es) (y :: ys) c' := by
  obtain ⟨c₁, hopen⟩ := pass3_opens hstep
  obtain ⟨htf, d, hd, hdf, htiles⟩ := h.opened hfile htogether hopen
  have hhead : (named (e :: es)).head? = some f := by
    rw [named_cons_some hfile]
    rfl
  by_cases htype : e.index.type = INDEX_NORMAL
  · have hin : e.isIn f = true := isIn_iff.mpr ⟨htype, hfile⟩
    obtain ⟨htotal, hle⟩ := h.room ho hin hd hdf htiles
    obtain ⟨htf', hlen, hkept, hsum⟩ := pass3_present ho.within htype hopen hle hstep
    have hyin : y.isIn f = true := (hkept.isIn f).trans hin
    have hnew : Tiles y.index.file_start.toNat
        (((y :: ys).filter (Entry.isIn f)).map Entry.inFile) (d.total files f) := by
      rw [List.filter_cons_of_pos hyin, List.map_cons]
      refine .cons ?_
      rw [hkept.file_start htype, hsum]
      exact htiles
    refine ⟨?_, .cons hkept h.kept, fun g hg => ?_, fun g e' rest hfilter => ?_⟩
    · rw [htf', htf, hhead]
    · obtain rfl : f = g := Option.some.inj (htf.symm.trans (htf'.symm.trans hg))
      rw [hlen, ← hkept.file_start htype]
      exact ⟨d, hd, hdf, hnew⟩
    · by_cases hg : y.isIn g = true
      · obtain rfl : f = g := by
          have hyf := (isIn_iff.mp hyin).2
          have hyg := (isIn_iff.mp hg).2
          exact Option.some.inj (hyf.symm.trans hyg)
        obtain ⟨rfl, rfl⟩ := List.cons.inj ((List.filter_cons_of_pos hyin).symm.trans hfilter)
        rw [List.filter_cons_of_pos hyin] at hnew
        rw [hkept.total, htotal]
        exact hnew
      · rw [List.filter_cons_of_neg hg] at hfilter
        exact h.tiles g e' rest hfilter
  · obtain ⟨rfl, hkept⟩ := pass3_absent ho.within htype hopen hstep
    refine ⟨htf.trans hhead.symm, .cons hkept h.kept, fun g hg => ?_, h.tiles.absent hkept htype⟩
    obtain rfl : f = g := Option.some.inj (htf.symm.trans hg)
    rw [filter_absent hkept htype]
    exact ⟨d, hd, hdf, htiles⟩

/-- From the last index to the first, pass 3 divides every file among its indexes. -/
theorem walk_filled (ho : Ordered files es) (htogether : Together (named es)) {zs : List (Entry F)}
    (h : Walk (pass3_entry files) ⟨none, 0⟩ es.reverse c zs) : Filled files es zs.reverse c := by
  induction es generalizing c zs with
  | nil =>
    cases h
    exact ⟨rfl, .nil, fun _ hf => (nomatch hf), fun _ _ _ hfilter => (nomatch hfilter)⟩
  | cons e es ih =>
    obtain ⟨c₁, y, us, rfl, hrest, hstep⟩ := walk_reverse_cons h
    rw [List.reverse_reverse]
    cases hfile : e.index.file with
    | none =>
      rw [named_cons_none hfile] at htogether
      have hfilled := ih ho.tail htogether hrest
      rw [List.reverse_reverse] at hfilled
      exact hfilled.unnamed ho hfile hstep
    | some f =>
      rw [named_cons_some hfile] at htogether
      have hfilled := ih ho.tail htogether.2 hrest
      rw [List.reverse_reverse] at hfilled
      exact hfilled.names ho htogether.1 hfile hstep

/-! ## A walk of pass 4, from the first index -/

/-- The part of the disc that an index has. -/
def TrackIndex.onDisc (ci : TrackIndex F) : Extent := (ci.start.toNat, ci.length.toNat)

def Entry.onDisc (e : Entry F) : Extent := e.index.onDisc

/-- An index that is not on the disc has no length. -/
def TrackIndex.Silent (ci : TrackIndex F) : Prop :=
  ci.type = INDEX_SPECIAL ∨ ci.type = INDEX_NONE → ci.length = 0

instance (ci : TrackIndex F) : Decidable ci.Silent := inferInstanceAs (Decidable (_ → _))

/-- The lengths on the disc of the indexes. -/
def lengths (es : List (Entry F)) : Nat := (es.map fun e => e.index.length.toNat).sum

/-- Pass 4 leaves what an index has of its file. -/
structure Entry.Started (e e' : Entry F) : Prop where
  size : e'.size = e.size
  type : e'.index.type = e.index.type
  file : e'.index.file = e.index.file
  file_start : e'.index.file_start = e.index.file_start
  file_length : e'.index.file_length = e.index.file_length

section

omit [DecidableEq F]

variable {cur cur' : BitVec 64}

theorem pass4_started (h : pass4_entry cur e = .ok (cur', y)) : e.Started y := by
  unfold pass4_entry pass4_index at h
  split at h <;> cases h <;> exact ⟨rfl, rfl, rfl, rfl, rfl⟩

/-- An index starts at the position of the pass, which goes on by its length. -/
theorem pass4_extent (hsilent : e.index.Silent) (h : pass4_entry cur e = .ok (cur', y)) :
    y.index.start = cur ∧ cur' = cur + y.index.length ∧ y.index.Silent := by
  unfold pass4_entry pass4_index at h
  split at h
  · rename_i htype
    cases h
    refine ⟨rfl, ?_, hsilent⟩
    rw [hsilent (.inl htype)]
    exact (BitVec.add_zero cur).symm
  · rename_i htype
    cases h
    refine ⟨rfl, ?_, hsilent⟩
    rw [hsilent (.inr htype)]
    exact (BitVec.add_zero cur).symm
  · cases h
    exact ⟨rfl, rfl, hsilent⟩
  · rename_i htype
    cases h
    refine ⟨rfl, rfl, fun hnone => ?_⟩
    rw [htype] at hnone
    rcases hnone with hnone | hnone
    · cases hnone
    · cases hnone

/-- From the first index to the last, pass 4 divides the disc among the indexes. -/
theorem walk_tiles (h : Walk pass4_entry cur es cur' ys) (hsilent : ∀ e ∈ es, e.index.Silent)
    (hsum : cur.toNat + lengths ys < 2 ^ 64) :
    Tiles cur.toNat (ys.map Entry.onDisc) cur'.toNat ∧ cur'.toNat = cur.toNat + lengths ys ∧
      (∀ y ∈ ys, y.index.Silent) ∧ List.Forall₂ Entry.Started es ys := by
  induction h with
  | nil => exact ⟨.nil, rfl, fun _ hy => absurd hy List.not_mem_nil, .nil⟩
  | @cons cur cur₁ cur' e y es ys hx _ ih =>
    obtain ⟨hstart, hnext, hy⟩ := pass4_extent (hsilent e List.mem_cons_self) hx
    have hlengths : lengths (y :: ys) = y.index.length.toNat + lengths ys := rfl
    rw [hlengths] at hsum
    have hcur : cur₁.toNat = cur.toNat + y.index.length.toNat := by
      rw [hnext, BitVec.toNat_add_of_lt (by omega)]
    obtain ⟨htiles, hend, hys, hall⟩ :=
      ih (fun e he => hsilent e (List.mem_cons_of_mem _ he)) (by omega)
    refine ⟨?_, by omega, fun z hz => ?_, .cons (pass4_started hx) hall⟩
    · rw [List.map_cons]
      have honDisc : y.onDisc = (cur.toNat, y.index.length.toNat) := by
        unfold Entry.onDisc TrackIndex.onDisc
        rw [hstart]
      rw [honDisc]
      refine .cons ?_
      rw [← hcur]
      exact htiles
    · rcases List.mem_cons.mp hz with rfl | hz
      · exact hy
      · exact hys z hz

end

theorem Entry.Started.isIn {e e' : Entry F} (h : e.Started e') (f : F) : e'.isIn f = e.isIn f := by
  unfold Entry.isIn
  rw [h.type, h.file]

omit [DecidableEq F] in
theorem Entry.Started.inFile {e e' : Entry F} (h : e.Started e') : e'.inFile = e.inFile := by
  unfold Entry.inFile
  rw [h.file_start, h.file_length]

omit [DecidableEq F] in
theorem started_inFile (h : List.Forall₂ Entry.Started es ys) :
    ys.map Entry.inFile = es.map Entry.inFile := by
  induction h with
  | nil => rfl
  | cons hx _ ih => rw [List.map_cons, List.map_cons, hx.inFile, ih]

/-- The parts of the files stay as they are. -/
theorem FilesTile.started (h : FilesTile files es) (hall : List.Forall₂ Entry.Started es ys) :
    FilesTile files ys := by
  intro f y rest hfilter
  have hfilters :
      List.Forall₂ Entry.Started (es.filter (Entry.isIn f)) (ys.filter (Entry.isIn f)) :=
    List.rel_filter (fun e e' hs => by
      change e.isIn f = true ↔ e'.isIn f = true
      rw [hs.isIn]) hall
  rw [hfilter] at hfilters
  obtain ⟨e, es', hstarted, hrest, hes⟩ := List.forall₂_cons_right_iff.mp hfilters
  have htiles := h f e es' hes
  have htotal : y.total files f = e.total files f := by
    unfold Entry.total
    rw [hstarted.size]
  rw [htotal, hstarted.file_start, started_inFile (.cons hstarted hrest)]
  exact htiles

end blumach.cdrom_image
