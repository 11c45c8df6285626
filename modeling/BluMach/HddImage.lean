-- The images of hard disks, of `disk/hdd_image.c`: how one is opened or made, what its header
-- says, and how its file is brought to its length. Raw, HDI and HDX images are files of their
-- own; a VHD image is left to `minivhd`.
import BluMach.FileStream

namespace blumach.hdd_image

open file_stream

/-! ## Images -/

inductive ImageType where
  | HDD_IMAGE_RAW
  | HDD_IMAGE_HDI
  | HDD_IMAGE_HDX
  | HDD_IMAGE_VHD
deriving DecidableEq, Repr

/-- The extension of a file name, in any case. -/
inductive Extension where
  | hdi
  | hdx
  | vhd
  | other
deriving DecidableEq, Repr

/-- `hdd_image_t`, for an image that is not left to `minivhd`. -/
structure hdd_image_t where
  file : Option Stream
  base : BitVec 32
  pos : BitVec 32
  last_sector : BitVec 32
  type : ImageType
  loaded : Bool
  is_block_device : Bool

/-- What a load uses of `hdd[id]`. The file name is its extension, and whether it starts with
a dot; after a failure it is cleared. -/
structure hard_disk_t where
  spt : BitVec 32
  hpc : BitVec 32
  tracks : BitVec 32
  wp : Bool
  raw_device : Bool
  extension : Extension
  starts_with_dot : Bool
  fn_cleared : Bool

/-- What a load finds: the build, the file if there is one, and whether it can be opened or
made. -/
structure Host where
  __unix__ : Bool
  file : Option (List (BitVec 8))
  opens : Bool
  creates : Bool
  /-- an earlier drive has the same file name -/
  already_loaded : Bool
  /-- `plat_is_block_device`, and the size of the device -/
  is_block_device : Bool
  device_size : Int
  /-- `mvhd_file_is_vhd` -/
  is_vhd : List (BitVec 8) → Bool

/-- How a load ends. -/
inductive Load where
  | fatal
  /-- the image is opened or created by `minivhd` -/
  | minivhd
  | returned (ret : Int) (image : hdd_image_t) (hdd : hard_disk_t)

/-! ## Names and signatures -/

def HDX_SIGNATURE : Nat := 0xD778A82044445459

def image_is_hdi (hdd : hard_disk_t) : Bool := hdd.extension = .hdi

/-- With the signature checked, the file must be there, and have 44 bytes at least. -/
def image_is_hdx (host : Host) (hdd : hard_disk_t) (check_signature : Bool) : Bool :=
  if hdd.extension = .hdx then
    if check_signature then
      match host.file with
      | none => false
      | some file => if file.length < 44 then false else join (file.take 8) = HDX_SIGNATURE
    else true
  else false

def image_is_vhd (host : Host) (hdd : hard_disk_t) (check_signature : Bool) : Bool :=
  if hdd.extension = .vhd then
    if check_signature then
      match host.file with
      | none => false
      | some file => host.is_vhd file
    else true
  else false

/-! ## Geometry -/

/-- `spt * hpc * tracks << 9` in 64 bits. -/
def fullSize (hdd : hard_disk_t) : BitVec 64 :=
  (hdd.spt.setWidth 64 * hdd.hpc.setWidth 64 * hdd.tracks.setWidth 64) <<< 9

/-- `(uint32_t) (full_size >> 9) - 1`. -/
def lastSector (full_size : BitVec 64) : BitVec 32 := (full_size >>> 9).setWidth 32 - 1

/-- Cylinders, heads and sectors for a size in megabytes. -/
def hdd_image_calc_chs (size : BitVec 32) : BitVec 32 × BitVec 32 × BitVec 32 :=
  let ts := min (size.toNat <<< 11) (65535 * 16 * 255)
  if ts ≥ 65535 * 16 * 63 then
    let cth := ts / 255
    (BitVec.ofNat 32 (cth / 16), 16, 255)
  else
    let spt := 17
    let cth := ts / spt
    let heads := max ((cth + 1023) / 1024) 4
    let (spt, heads, cth) :=
      if cth ≥ heads * 1024 ∨ heads > 16 then (31, 16, ts / 31) else (spt, heads, cth)
    let (spt, heads, cth) :=
      if cth ≥ heads * 1024 then (63, 16, ts / 63) else (spt, heads, cth)
    (BitVec.ofNat 32 (cth / heads), BitVec.ofNat 32 heads, BitVec.ofNat 32 spt)

/-! ## The length of the file -/

def MB : Nat := 1048576

/-- The loop of the 1 MB blocks. -/
def writeBlocks : Nat → Stream → Stream
  | 0, f => f
  | t + 1, f => writeBlocks t (f.seekEnd.fwrite (zeros MB))

/-- The zeroes that a build without `ftruncate` writes. -/
def writeMissing (target_size : BitVec 64) (f : Stream) : Stream :=
  let t := (target_size >>> 20).setWidth 32
  let size := (target_size &&& 0xfffff).setWidth 32
  let f := if t.toNat > 0 then writeBlocks t.toNat f else f
  if size.toNat > 0 then f.seekEnd.fwrite (zeros size.toNat) else f

/-- None if the length could not be set, which is fatal. -/
def prepare_new_hard_disk (__unix__ : Bool) (full_size : BitVec 64) (image : hdd_image_t) :
    Option (Int × hdd_image_t) :=
  match image.file with
  | none => some (-1, image)
  | some f =>
    if image.is_block_device then
      some (1, { image with last_sector := lastSector full_size, loaded := true })
    else
      let target_size := (full_size + image.base.setWidth 64) - BitVec.ofNat 64 f.pos
      if __unix__ then
        match f.ftruncate target_size.toNat with
        | none => none
        | some f =>
          some (1, { image with
            file := some f, last_sector := lastSector full_size, loaded := true })
      else
        some (1, { image with
          file := some (writeMissing target_size f)
          last_sector := lastSector full_size
          loaded := true })

/-! ## Headers -/

/-- The parts of a new HDI header, in the order in which they are written. -/
def hdiHeader (hdd : hard_disk_t) : List (List (BitVec 8)) :=
  [bytesOf 4 0, bytesOf 4 0, bytesOf 4 0x1000, bytesOf 4 (fullSize hdd).toNat, bytesOf 4 512,
    bytesOf 4 hdd.spt.toNat, bytesOf 4 hdd.hpc.toNat, bytesOf 4 hdd.tracks.toNat] ++
  List.replicate 0x3f8 (bytesOf 4 0)

/-- The parts of a new HDX header. -/
def hdxHeader (hdd : hard_disk_t) : List (List (BitVec 8)) :=
  [bytesOf 8 HDX_SIGNATURE, bytesOf 8 (fullSize hdd).toNat, bytesOf 4 512,
    bytesOf 4 hdd.spt.toNat, bytesOf 4 hdd.hpc.toNat, bytesOf 4 hdd.tracks.toNat,
    bytesOf 4 0, bytesOf 4 0]

def writeParts (parts : List (List (BitVec 8))) (f : Stream) : Stream :=
  parts.foldl (fun f d => f.fwrite d) f

/-- The sector size and what follows it in both headers: `spt`, `hpc` and `tracks`. None if one
of them cannot be read, which is fatal, and no geometry for another sector size. -/
def readGeometry (f : Stream) : Option (Stream × Option (BitVec 32 × BitVec 32 × BitVec 32)) := do
  let (sector_size, f) ← (f.seek 0x10).fread 4
  if sector_size ≠ 512 then some (f, none)
  else
    let (spt, f) ← f.fread 4
    let (hpc, f) ← f.fread 4
    let (tracks, f) ← f.fread 4
    some (f, some (BitVec.ofNat 32 spt, BitVec.ofNat 32 hpc, BitVec.ofNat 32 tracks))

/-! ## Loading -/

/-- At `fail_raw`. -/
def failRaw (image : hdd_image_t) (hdd : hard_disk_t) : Load :=
  .returned 1
    { image with
      type := .HDD_IMAGE_RAW
      last_sector :=
        (hdd.spt.setWidth 64 * hdd.hpc.setWidth 64 * hdd.tracks.setWidth 64 : BitVec 64).setWidth 32
          - 1 }
    hdd

def clearName (hdd : hard_disk_t) : hard_disk_t := { hdd with fn_cleared := true }

/-- An image that is not open. -/
def closedImage : hdd_image_t where
  file := none
  base := 0
  pos := 0
  last_sector := 0
  type := .HDD_IMAGE_RAW
  loaded := false
  is_block_device := false

def loadBlockDevice (host : Host) (hdd : hard_disk_t) : Load :=
  if host.device_size ≤ 0 then failRaw closedImage hdd
  else if host.opens = false then failRaw closedImage hdd
  else
    let hdd :=
      if hdd.spt ≠ 0 ∧ hdd.hpc ≠ 0 ∧ hdd.tracks ≠ 0 then hdd
      else
        let (c, h, s) :=
          hdd_image_calc_chs ((BitVec.ofInt 64 host.device_size >>> 20).setWidth 32)
        { hdd with tracks := c, hpc := h, spt := s }
    .returned 1
      { closedImage with
        file := some (Stream.start (host.file.getD []))
        last_sector := lastSector (fullSize hdd)
        loaded := true
        is_block_device := true }
      hdd

/-- What comes of `prepare_new_hard_disk` in a new image. -/
def prepared (host : Host) (image : hdd_image_t) (hdd : hard_disk_t) : Load :=
  match prepare_new_hard_disk host.__unix__ (fullSize hdd) image with
  | none => .fatal
  | some (ret, image) => if ret ≤ 0 then failRaw image hdd else .returned ret image hdd

/-- A new image, from the open with `wb+` on. -/
def createImage (host : Host) (hdd : hard_disk_t) : Load :=
  if hdd.wp then failRaw closedImage (clearName hdd)
  else if host.creates = false then failRaw closedImage (clearName hdd)
  else
    let f := Stream.start []
    if image_is_hdi hdd then
      prepared host
        { closedImage with
          file := some (writeParts (hdiHeader hdd) f), base := 0x1000, type := .HDD_IMAGE_HDI } hdd
    else if image_is_hdx host hdd false then
      prepared host
        { closedImage with
          file := some (writeParts (hdxHeader hdd) f), base := 0x28, type := .HDD_IMAGE_HDX } hdd
    else if image_is_vhd host hdd false then .minivhd
    else prepared host { closedImage with file := some f } hdd

/-- An image that was opened, with its geometry. -/
structure Opened where
  image : hdd_image_t
  hdd : hard_disk_t
  full_size : BitVec 64

/-- The base of an HDI image, and the image if its sector size is 512. -/
def openHdi (file : List (BitVec 8)) (hdd : hard_disk_t) :
    Option (BitVec 32 × Option Opened) := do
  let (base, f) ← ((Stream.start file).seek 0x8).fread 4
  let (full_size, f) ← (f.seek 0xc).fread 4
  let (f, geometry) ← readGeometry f
  some (BitVec.ofNat 32 base, geometry.map fun (spt, hpc, tracks) =>
    { image :=
        { closedImage with file := some f, base := BitVec.ofNat 32 base, type := .HDD_IMAGE_HDI }
      hdd := { hdd with spt := spt, hpc := hpc, tracks := tracks }
      full_size := BitVec.ofNat 64 full_size })

def openHdx (file : List (BitVec 8)) (hdd : hard_disk_t) :
    Option (BitVec 32 × Option Opened) := do
  let (full_size, f) ← ((Stream.start file).seek 0x8).fread 8
  let (f, geometry) ← readGeometry f
  some (0x28, geometry.map fun (spt, hpc, tracks) =>
    { image := { closedImage with file := some f, base := 0x28, type := .HDD_IMAGE_HDX }
      hdd := { hdd with spt := spt, hpc := hpc, tracks := tracks }
      full_size := BitVec.ofNat 64 full_size })

def openRaw (file : List (BitVec 8)) (hdd : hard_disk_t) : Opened where
  image := { closedImage with file := some (Stream.start file) }
  hdd := hdd
  full_size := fullSize hdd

/-- From the seek to the end of the file on. -/
def finishLoad (host : Host) (o : Opened) : Load :=
  match o.image.file with
  | none => .fatal
  | some f =>
    let f := f.seekEnd
    let image := { o.image with file := some f }
    if BitVec.ofNat 64 f.pos < o.full_size + image.base.setWidth 64 then
      match prepare_new_hard_disk host.__unix__ o.full_size image with
      | none => .fatal
      | some (ret, image) => .returned ret image o.hdd
    else
      .returned 1 { image with last_sector := lastSector o.full_size, loaded := true } o.hdd

/-- An image of another sector size is closed again. -/
def afterHeader (host : Host) (hdd : hard_disk_t) : Option (BitVec 32 × Option Opened) → Load
  | none => .fatal
  | some (base, none) => failRaw { closedImage with base := base } (clearName hdd)
  | some (_, some o) => finishLoad host o

/-- The loading of an image into a drive that has none loaded. -/
def hdd_image_load (host : Host) (hdd : hard_disk_t) : Load :=
  if host.already_loaded then .fatal
  else if hdd.raw_device || host.is_block_device then loadBlockDevice host hdd
  else if hdd.starts_with_dot then failRaw closedImage (clearName hdd)
  else
    match host.file with
    | none => createImage host hdd
    | some file =>
      if host.opens = false then failRaw closedImage hdd
      else if image_is_hdi hdd then afterHeader host hdd (openHdi file hdd)
      else if image_is_hdx host hdd true then afterHeader host hdd (openHdx file hdd)
      else if image_is_vhd host hdd true then .minivhd
      else finishLoad host (openRaw file hdd)

/-- What the file of an image has once its stream is closed. -/
def hdd_image_t.contents (image : hdd_image_t) : List (BitVec 8) :=
  match image.file with
  | none => []
  | some f => f.contents

end blumach.hdd_image
