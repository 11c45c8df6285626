-- Disc images of `cdrom/cdrom_image.c`: the tracks, the passes that give every index its place
-- in its file and on the disc, and the search for the track that has a sector.
import BluMach.InPlace
import Mathlib.Data.BitVec
import Mathlib.Data.Fin.Basic

namespace blumach.cdrom_image

/-- For the literals of `Fin 4`. -/
scoped instance neZero_4 : @NeZero Nat Zero.ofOfNat0 4 := ⟨by decide⟩

/-- For the literals of `Fin 100`. -/
scoped instance neZero_100 : @NeZero Nat Zero.ofOfNat0 100 := ⟨by decide⟩

open in_place

/-! ## The tracks -/

inductive IndexType where
  | INDEX_SPECIAL
  | INDEX_NONE
  | INDEX_ZERO
  | INDEX_NORMAL
deriving DecidableEq, Repr

open IndexType

/-- A place of a track: where it starts on the disc and in the file. -/
structure TrackIndex (F : Type) where
  type : IndexType
  start : BitVec 64
  length : BitVec 64
  file_start : BitVec 64
  file_length : BitVec 64
  file : Option F

structure Track (F : Type) where
  session : BitVec 8
  attr : BitVec 8
  point : BitVec 8
  extra : Fin 4 → BitVec 8
  mode : BitVec 8
  form : BitVec 8
  skip : BitVec 8
  subch_type : BitVec 8
  max_index : BitVec 8
  sector_size : BitVec 32
  idx : Fin 100 → TrackIndex F

/-- What a file answers: its length in bytes, and the buffer, all zeroes before, after a read
of `sector_size` bytes at `seek`. -/
structure Files (F : Type) where
  get_length : F → BitVec 64
  read : F → BitVec 64 → BitVec 64 → Nat → BitVec 8

inductive Fault where
  | OutOfBounds
  | NullPointer
  | DivisionByZero
  | Fatal
deriving DecidableEq, Repr

open Fault

variable {F : Type}

/-- What `calloc` and `memset` make of an index. -/
def blankIndex : TrackIndex F := ⟨INDEX_ZERO, 0, 0, 0, 0, none⟩

/-- The indexes of a new track. -/
def blankIdx (point : BitVec 8) (i : Fin 100) : TrackIndex F :=
  if i < 3 then
    { (blankIndex : TrackIndex F) with type := if point > 99 then INDEX_SPECIAL else INDEX_NONE }
  else blankIndex

/-- The track that `image_insert_track` adds. -/
def blankTrack (session point : BitVec 8) : Track F where
  session := session
  attr := if point ≥ 0xb0 then 0x50 else 0
  point := point
  extra := fun _ => 0
  mode := 0
  form := 0
  skip := 0
  subch_type := 0
  max_index := 2
  sector_size := 0
  idx := blankIdx point

def image_insert_track (tracks : List (Track F)) (session point : BitVec 8) : List (Track F) :=
  tracks ++ [blankTrack session point]

/-- The track at a position of the array. -/
def trackAt (tracks : List (Track F)) (i : Nat) : Except Fault (Track F) :=
  match tracks[i]? with
  | none => .error OutOfBounds
  | some ct => .ok ct

/-- The positions from 0 to `max_index`. -/
def Track.indexes (ct : Track F) : List (Fin 100) :=
  (List.finRange 100).filter fun j => j.val ≤ ct.max_index.toNat

def Track.isNumbered (ct : Track F) : Bool := decide (1 ≤ ct.point) && decide (ct.point ≤ 99)

def Track.isSpecial (ct : Track F) : Bool := decide ((ct.idx 1).type = INDEX_SPECIAL)

/-- A loop over the indexes of a track, forwards or backwards. -/
def eachIndex {σ : Type} (order : List (Fin 100) → List (Fin 100))
    (step : σ → TrackIndex F → Except Fault (σ × TrackIndex F)) (s : σ) (ct : Track F) :
    Except Fault (σ × Track F) :=
  if ct.max_index > 99 then .error OutOfBounds
  else
    ((order ct.indexes).foldlM (visitAt step) (s, ct.idx)).map fun r =>
      (r.1, { ct with idx := r.2 })

/-! ## Pass 2: the pre-gaps, and the order of the tracks -/

/-- A pre-gap of 0:02:00 that is not in the file. -/
def silentPregap (ct : Track F) : Track F :=
  { ct with idx := Function.update ct.idx 0 { ct.idx 0 with
      type := INDEX_ZERO
      start := 0
      length := 150 } }

/-- The first track of the first session. -/
def adjustFirst (tracks : List (Track F)) : Except Fault (List (Track F)) := do
  let ct ← trackAt tracks 3
  if (ct.idx 0).type = INDEX_NONE then pure (tracks.set 3 (silentPregap ct)) else pure tracks

/-- The first track of the session after a track B0h. -/
def adjustNext (tracks : List (Track F)) (i : Nat) (ct : Track F) :
    Except Fault (List (Track F)) := do
  let next := i + (if ct.session = 1 then 1 else 0) + 4
  let ft ← trackAt tracks next
  if (ft.idx 0).type = INDEX_NONE then
    if (ft.idx 1).type = INDEX_NORMAL then
      pure (tracks.set next { ft with idx := Function.update ft.idx 0 { ft.idx 0 with
        type := INDEX_NORMAL
        file_start := (ft.idx 1).file_start - 150 } })
    else pure (tracks.set next (silentPregap ft))
  else pure tracks

/-- `map[pos] = i; pos++` -/
def pushMap (map : List Nat) (i : Nat) : Except Fault (List Nat) :=
  if map.length < 256 then .ok (map ++ [i]) else .error OutOfBounds

structure Remap (F : Type) where
  tracks : List (Track F)
  map : List Nat
  lead : List Nat

def pass2_step (s : Remap F) (i : Nat) : Except Fault (Remap F) := do
  let ct ← trackAt s.tracks i
  if ct.isNumbered || decide (ct.point ≥ 0xb0) then
    let s ← if ct.point = 0xb0 then do
        let tracks ← adjustNext s.tracks i ct
        let map ← s.lead.foldlM pushMap s.map
        pure { s with tracks := tracks, map := map }
      else pure s
    let map ← pushMap s.map i
    pure { s with map := map }
  else if ct.point ≥ 0xa0 ∧ ct.point ≤ 0xa2 then
    pure { s with lead := s.lead.set (ct.point &&& 0x03).toNat i }
  else pure s

def pass2 (tracks : List (Track F)) : Except Fault (List (Track F) × List Nat) := do
  let tracks ← adjustFirst tracks
  let s ← (List.range tracks.length).foldlM pass2_step ⟨tracks, [], [0, 0, 0]⟩
  let map ← s.lead.foldlM pushMap s.map
  if map.length ≠ tracks.length then throw Fatal
  pure (s.tracks, map)

/-! ## Pass 3: the lengths in the files, from the last index to the first -/

/-- The file that the pass is in, and what is left of it. -/
structure FileCursor (F : Type) where
  tf : Option F
  tf_len : BitVec 64

/-- An index that names another file than the one before it opens that file. -/
def openFile [DecidableEq F] (files : Files F) (sector_size : BitVec 32) (c : FileCursor F)
    (ci : TrackIndex F) : Except Fault (FileCursor F) :=
  match ci.file with
  | none => .ok c
  | some f =>
    if c.tf = some f then .ok c
    else if sector_size = 0 then .error DivisionByZero
    else .ok ⟨some f, files.get_length f / sector_size.setWidth 64⟩

/-- A pre-gap from before the beginning of the file. -/
def fromBefore (ci : TrackIndex F) : TrackIndex F :=
  if ci.type = INDEX_NORMAL ∧ ci.file_start.toInt < 0 then
    { ci with
      type := INDEX_ZERO
      length := 150
      file_start := 0
      file_length := 0 }
  else ci

/-- An index that is present in the file has what is left of it. -/
def takeLength (c : FileCursor F) (ci : TrackIndex F) : FileCursor F × TrackIndex F :=
  if ci.type = INDEX_NORMAL then
    let file_length := c.tf_len - ci.file_start
    ({ c with tf_len := c.tf_len - file_length }, { ci with file_length := file_length })
  else (c, { ci with file_start := c.tf_len })

def pass3_index [DecidableEq F] (files : Files F) (sector_size : BitVec 32) (c : FileCursor F)
    (ci : TrackIndex F) : Except Fault (FileCursor F × TrackIndex F) := do
  let c ← openFile files sector_size c ci
  pure (takeLength c (fromBefore ci))

def pass3_track [DecidableEq F] (files : Files F) (c : FileCursor F) (ct : Track F) :
    Except Fault (FileCursor F × Track F) :=
  if ct.isSpecial then .ok (c, ct)
  else eachIndex List.reverse (pass3_index files ct.sector_size) c ct

def pass3 [DecidableEq F] (files : Files F) (map : List Nat) (tracks : List (Track F)) :
    Except Fault (List (Track F)) :=
  (map.reverse.foldlM (visit OutOfBounds (pass3_track files)) (⟨none, 0⟩, tracks)).map (·.2)

/-! ## Pass 4: the starts on the disc -/

def pass4_index (cur_pos : BitVec 64) (ci : TrackIndex F) :
    Except Fault (BitVec 64 × TrackIndex F) :=
  match ci.type with
  | INDEX_SPECIAL | INDEX_NONE => .ok (cur_pos, { ci with start := cur_pos })
  | INDEX_ZERO => .ok (cur_pos + ci.length, { ci with start := cur_pos })
  | INDEX_NORMAL =>
    .ok (cur_pos + ci.file_length, { ci with start := cur_pos, length := ci.file_length })

/-- The position on the disc, the last session, and where the sessions start. -/
structure DiscCursor where
  cur_pos : BitVec 64
  ls : BitVec 8
  spg : Nat → BitVec 64

def pass4_track (d : DiscCursor) (ct : Track F) : Except Fault (DiscCursor × Track F) :=
  if ct.isSpecial then .ok (d, ct)
  else do
    let (cur_pos, ct') ← eachIndex id pass4_index d.cur_pos ct
    if ct.session ≠ d.ls then
      -- `spg` is set at each index, and `idx[0]` is final after the first of them
      pure (⟨cur_pos, ct.session, Function.update d.spg ct.session.toNat (ct'.idx 0).start⟩, ct')
    else pure ({ d with cur_pos := cur_pos }, ct')

def pass4 (map : List Nat) (tracks : List (Track F)) :
    Except Fault (DiscCursor × List (Track F)) :=
  map.foldlM (visit OutOfBounds pass4_track) (⟨0, 0, fun _ => 0⟩, tracks)

/-! ## Passes 5 and 6: the lead-outs, and the special tracks -/

def Track.isOf (session : BitVec 8) (ct : Track F) : Bool :=
  decide (ct.session = session) && ct.isNumbered

/-- The last track of a session up to `ls`. -/
def lo (tracks : List (Track F)) (ls session : BitVec 8) : Option (Track F) :=
  if session ≤ ls then tracks.reverse.find? (Track.isOf session) else none

def image_can_read_pvd (files : Files F) (file : F) (start : BitVec 64) (sector_size : BitVec 64)
    (xa : Bool) : BitVec 32 :=
  let buf := files.read file (start + 16 * sector_size) sector_size
  let pvd : Nat :=
    if sector_size ≥ 2352 then (if xa then 24 else 16)
    else if sector_size ≥ 2332 then (if xa then 8 else 0)
    else 0
  let ret :=
    (buf pvd = 1 ∧ buf (pvd + 1) = 0x43 ∧ buf (pvd + 2) = 0x44 ∧ buf (pvd + 3) = 0x30 ∧
      buf (pvd + 4) = 0x30 ∧ buf (pvd + 5) = 0x31 ∧ buf (pvd + 6) = 1) ∨
    (buf (pvd + 8) = 1 ∧ buf (pvd + 9) = 0x43 ∧ buf (pvd + 10) = 0x44 ∧ buf (pvd + 11) = 0x52 ∧
      buf (pvd + 12) = 0x4f ∧ buf (pvd + 13) = 0x4d ∧ buf (pvd + 14) = 1)
  let form (sub : BitVec 8) : BitVec 32 := 0x20 ||| (((sub &&& 0x20) >>> 5).setWidth 32 + 1)
  if ret then
    if sector_size ≥ 2352 then (if xa then form (buf 18) else (buf 15).setWidth 32 <<< 4)
    else if sector_size ≥ 2332 then (if xa then form (buf 2) else 0x20)
    else if sector_size ≥ 2324 then 0x22
    -- "CD-XA001"
    else if [0x43, 0x44, 0x2d, 0x58, 0x41, 0x30, 0x30, 0x31] =
        (List.range 8).map fun k => buf (pvd + 0x400 + k) then 0x21
    else 0x10
  else 0

/-- The mode and the form that the volume descriptor gives. -/
def Track.determined (ct : Track F) (can_read_pvd : BitVec 32) : Track F :=
  let form := (can_read_pvd &&& 0xf).setWidth 8
  { ct with
    mode := (can_read_pvd >>> 4).setWidth 8
    form := form
    skip := if (ct.sector_size = 2332 ∨ ct.sector_size = 2336) ∧ form ≥ 1 then 8 else ct.skip }

/-- Override the loaded modes with those that the file has. -/
def refine_mode (files : Files F) (ct : Track F) : Except Fault (Track F) :=
  let ci := ct.idx 1
  if ci.type = INDEX_NORMAL ∧ ct.mode ≥ 1 then
    match ci.file with
    | none => .error NullPointer
    | some file =>
      let sector_size := ct.sector_size.setWidth 64
      let can_read_pvd := image_can_read_pvd files file (ci.file_start * sector_size) sector_size
      let ct := { ct with skip := 0 }
      if can_read_pvd false ≠ 0 then .ok (ct.determined (can_read_pvd false))
      else if ct.sector_size ≥ 2332 ∧ can_read_pvd true ≠ 0 then
        .ok (ct.determined (can_read_pvd true))
      else .ok ct
  else .ok ct

/-- A lead track is like the track that it is about, with its point at `start`. -/
def Track.pointTo (ct lt : Track F) (start : BitVec 64) : Track F :=
  { ct with
    attr := lt.attr
    mode := lt.mode
    form := lt.form
    idx := fun j =>
      if j.val ≤ ct.max_index.toNat then { ct.idx j with
        type := INDEX_ZERO
        start := start
        length := 0 }
      else ct.idx j }

/-- The place after an index. -/
def TrackIndex.stop (li : TrackIndex F) : BitVec 64 := li.start + li.length

/-- The last index of a track. -/
def Track.lastIndex (lt : Track F) : Except Fault (TrackIndex F) :=
  if h : lt.max_index.toNat < 100 then .ok (lt.idx ⟨lt.max_index.toNat, h⟩)
  else .error OutOfBounds

/-- The minute, the second and the frame of a place, before the last of the extra bytes. -/
def msf (extra : Fin 4 → BitVec 8) (place : Nat) (k : Fin 4) : BitVec 8 :=
  if k = 0 then BitVec.ofNat 8 (place / 75 / 60)
  else if k = 1 then BitVec.ofNat 8 (place / 75 % 60)
  else if k = 2 then BitVec.ofNat 8 (place % 75)
  else extra k

/-- What pass 6 makes of a track. -/
def pass6_track (files : Files F) (d : DiscCursor) (tracks : List (Track F)) (ct : Track F) :
    Except Fault (Track F) :=
  if ct.isNumbered then refine_mode files ct
  else if ct.point = 0xa0 then
    match tracks.find? (Track.isOf ct.session) with
    | none => .ok ct
    | some lt =>
      let disc_type : Nat := if lt.mode = 2 then 0x20 else 0
      .ok (ct.pointTo lt (BitVec.ofNat 64 (lt.point.toNat * 60 * 75 + disc_type * 75)))
  else if ct.point = 0xa1 then
    match tracks.reverse.find? (Track.isOf ct.session) with
    | none => .ok ct
    | some lt => .ok (ct.pointTo lt (BitVec.ofNat 64 (lt.point.toNat * 60 * 75)))
  else if ct.point = 0xa2 then
    match lo tracks d.ls ct.session with
    | none => .ok ct
    | some lt =>
      if (ct.idx 1).type ≠ INDEX_NORMAL then do
        let li ← lt.lastIndex
        pure (ct.pointTo lt li.stop)
      else .ok { ct with
        attr := lt.attr
        mode := lt.mode
        form := lt.form }
  else if ct.point = 0xb0 then
    if ct.session = 255 then .error OutOfBounds
    else
      let spg := (d.spg (ct.session.toNat + 1)).toNat
      let ct := { ct with extra := msf ct.extra spg }
      match lo tracks d.ls d.ls with
      | none => .ok ct
      | some lt =>
        .ok { ct with idx := Function.update ct.idx 1 { ct.idx 1 with start := (lt.idx 2).stop } }
  else .ok ct

def pass6_step (files : Files F) (d : DiscCursor) (tracks : List (Track F)) (i : Nat) :
    Except Fault (List (Track F)) := do
  let ct ← trackAt tracks i
  let ct ← pass6_track files d tracks ct
  pure (tracks.set i ct)

def image_process [DecidableEq F] (files : Files F) (tracks : List (Track F)) :
    Except Fault (List (Track F)) := do
  let (tracks, map) ← pass2 tracks
  let tracks ← pass3 files map tracks
  let (d, tracks) ← pass4 map tracks
  (List.range tracks.length).foldlM (pass6_step files d) tracks

/-! ## The search for a sector -/

/-- The index is on the disc, and the sector is in it. -/
def TrackIndex.has (ci : TrackIndex F) (sector : BitVec 32) : Bool :=
  let sector := (sector + 150).setWidth 64
  (decide (ci.type = INDEX_ZERO) || decide (ci.type = INDEX_NORMAL)) && decide (ci.length ≠ 0) &&
    decide (sector ≥ ci.start) && decide (sector ≤ ci.start + ci.length - 1)

/-- The position of the track that has a sector, or -1. -/
def image_get_track (tracks : List (Track F)) (sector : BitVec 32) : Int :=
  tracks.zipIdx.foldl (fun ret t =>
    if t.1.indexes.any fun j => (t.1.idx j).has sector then (t.2 : Int) else ret) (-1)

/-- The position of the track and of its index, or -1 for both. -/
def image_get_track_and_index (tracks : List (Track F)) (sector : BitVec 32) : Int × Int :=
  tracks.zipIdx.foldl (fun ret t =>
    if t.1.isNumbered then
      match t.1.indexes.find? fun j => (t.1.idx j).has sector with
      | none => ret
      | some j => ((t.2 : Int), (j.val : Int))
    else ret) (-1, -1)

end blumach.cdrom_image
