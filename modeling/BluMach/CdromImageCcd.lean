-- The CloneCD images of `cdrom/cdrom_image.c`: the tracks that are made of the entries of the table
-- of contents, their lengths, and the pre-gaps. The last length is the place after the file less a
-- place on the disc, which lies 150 further on, so no track has the last sector.
import BluMach.CdromImage
import Mathlib.Data.List.Sort

namespace blumach.cdrom_image

open IndexType

variable {F : Type}

/-! ## The table of contents -/

structure RawTrackInfo where
  session : BitVec 8
  adr_ctl : BitVec 8
  point : BitVec 8
  m : BitVec 8
  s : BitVec 8
  f : BitVec 8
  zero : BitVec 8
  pm : BitVec 8
  ps : BitVec 8
  pf : BitVec 8

def MSFtoLBA (m s f : BitVec 8) : BitVec 64 :=
  BitVec.ofNat 64 ((m.toNat * 60 + s.toNat) * 75 + f.toNat)

def RawTrackInfo.lba (rti : RawTrackInfo) : BitVec 64 := MSFtoLBA rti.pm rti.ps rti.pf

def RawTrackInfo.special_track (rti : RawTrackInfo) : Bool :=
  decide (rti.point > 99) || decide (rti.adr_ctl >>> 4 = 5)

/-- Make sure these appear last. -/
def RawTrackInfo.sortedLast (rti : RawTrackInfo) : RawTrackInfo :=
  if rti.adr_ctl >>> 4 = 5 then { rti with point := rti.point ||| 0xf0 } else rti

/-- `qsort` leaves entries with one point in any order, here in that of the table. -/
def sortRtis (rtis : List RawTrackInfo) : List RawTrackInfo :=
  (rtis.map RawTrackInfo.sortedLast).insertionSort fun a b => a.point ≤ b.point

/-- The first track that a loop looks for is changed, and the loop is left. -/
def changeFirst (found : Track F → Bool) (change : Track F → Track F) :
    List (Track F) → List (Track F)
  | [] => []
  | ct :: tracks =>
    if found ct then change ct :: tracks else ct :: changeFirst found change tracks

def Track.setIdx (ct : Track F) (j : Fin 100) (ci : TrackIndex F) : Track F :=
  { ct with idx := Function.update ct.idx j ci }

theorem setIdx_self (ct : Track F) (j : Fin 100) (ci : TrackIndex F) :
    (ct.setIdx j ci).idx j = ci := by
  simp [Track.setIdx]

theorem setIdx_of_ne {k j : Fin 100} (h : k ≠ j) (ct : Track F) (ci : TrackIndex F) :
    (ct.setIdx j ci).idx k = ct.idx k := by
  simp [Track.setIdx, h]

/-! ## Step 1: the tracks -/

/-- The index 0 that the section of the track gives, as a sector of the file. -/
def index_0 (tf : F) (start : BitVec 64) : Option (BitVec 32) → TrackIndex F
  | none => ⟨INDEX_NONE, 0, 0, 0, 0, none⟩
  | some lba_idx0 =>
    let lba_idx0 := lba_idx0.setWidth 64
    let length := (start - (lba_idx0 + 150)).abs
    ⟨INDEX_NORMAL, lba_idx0 + 150, length, lba_idx0, length, some tf⟩

def index_1 (tf : F) (rti : RawTrackInfo) : TrackIndex F :=
  ⟨if rti.special_track then INDEX_SPECIAL else INDEX_NORMAL, rti.lba, 0,
    if rti.special_track then 0 else rti.lba - 150, 0, some tf⟩

/-- What the entry makes of a track that has been inserted. -/
def fillTrack (tf : F) (index0 : BitVec 8 → Option (BitVec 32)) (rti : RawTrackInfo)
    (ct : Track F) : Track F :=
  let ct := { ct with
    attr := rti.adr_ctl
    extra := fun k =>
      if k = 0 then rti.m else if k = 1 then rti.s else if k = 2 then rti.f else rti.zero
    sector_size := 2352
    mode := if !rti.special_track && decide (rti.adr_ctl &&& 0x4 = 0) then 0 else 1
    form := 1
    subch_type := 0
    skip := 0
    max_index := 1 }
  (ct.setIdx 1 (index_1 tf rti)).setIdx 0 (index_0 tf rti.lba (index0 ct.point))

def loadEntry (tf : F) (index0 : BitVec 8 → Option (BitVec 32)) (tracks : List (Track F))
    (rti : RawTrackInfo) : List (Track F) :=
  (image_insert_track tracks rti.session rti.point).modify tracks.length (fillTrack tf index0 rti)

/-! ## Step 2: the lengths -/

def setLength (track_length : BitVec 64) (ct : Track F) : Track F :=
  ct.setIdx 1 { ct.idx 1 with length := track_length, file_length := track_length }

/-- The length of a track before the entry that is sorted next. -/
def trackLength (length_sect : BitVec 64) (rti : RawTrackInfo) :
    Option RawTrackInfo → BitVec 64
  | none => length_sect - rti.lba
  | some next => if next.point > 99 then length_sect - rti.lba else next.lba - rti.lba

def calculateLengths (length_sect : BitVec 64) :
    List RawTrackInfo → List (Track F) → List (Track F)
  | [], tracks => tracks
  | rti :: rtis, tracks =>
    if rti.point > 99 then tracks
    else
      let track_length := trackLength length_sect rti rtis.head?
      calculateLengths length_sect rtis
        (changeFirst (fun ct => ct.point = rti.point) (setLength track_length) tracks)

/-! ## Step 3: the pre-gaps -/

/-- Reduce the track length of the preceding session track. -/
def reduceLength (ct : Track F) : Track F :=
  ct.setIdx 1 { ct.idx 1 with
    file_length := (ct.idx 1).file_length - 150
    length := (ct.idx 1).length - 150 }

/-- The pre-gap of the first track of a session, at position `j`. -/
def generatePregap (j : Nat) (ct : Track F) (tracks : List (Track F)) : List (Track F) :=
  if (ct.idx 0).file.isSome then tracks
  else
    let pregap := { ct.idx 1 with start := (ct.idx 1).start - 150, length := 150 }
    if j = 1 then
      tracks.set j (ct.setIdx 0 { pregap with
        file := none, file_length := 0, file_start := 0, type := INDEX_ZERO })
    else
      changeFirst (fun t => t.point = ct.point - 1) reduceLength
        (tracks.set j (ct.setIdx 0 { pregap with
          file_length := pregap.length
          file_start := pregap.file_start - (pregap.start - 150) }))

/-- The track is the one that the loop over the tracks of session `i` looks for. -/
def isOfSession (i : Nat) (ct : Track F) : Bool :=
  decide (ct.session.toNat = i) && decide (ct.point < 99)

/-- The loop over the sessions, of which `left` more can have tracks. -/
def generatePregaps : Nat → List (Track F) → List (Track F)
  | 0, tracks => tracks
  | left + 1, tracks =>
    let i := 255 - left
    match tracks.findIdx? (isOfSession i) with
    | none => tracks
    | some j =>
      match tracks[j]? with
      | none => tracks
      | some ct => generatePregaps left (generatePregap j ct tracks)

/-- `image_load_ccd` from the entries of the table on. `index0` is what the section of a track has
under `INDEX 0`, and `length` that of the image file. -/
def image_load_ccd (tf : F) (length : BitVec 64) (index0 : BitVec 8 → Option (BitVec 32))
    (rtis : List RawTrackInfo) : List (Track F) :=
  let length_sect := length / 2352
  let tracks := rtis.foldl (loadEntry tf index0) []
  let tracks := calculateLengths length_sect (sortRtis rtis) tracks
  generatePregaps 255 tracks

end blumach.cdrom_image
