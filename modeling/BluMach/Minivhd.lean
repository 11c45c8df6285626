-- VHD images of `disk/minivhd/minivhd_io.c`: fixed images, and images of blocks that are put at
-- the end of the file when they are written first, with a bitmap of the sectors that are there.
-- The sectors that are not there are zeroes, or those of the parent.
import BluMach.ByteFile

namespace blumach.minivhd

open buffers byte_file

def MVHD_SECTOR_SIZE : Nat := 512

def MVHD_FOOTER_SIZE : Nat := 512

def MVHD_SPARSE_BLK : Nat := 0xffffffff

inductive MVHDType where
  | fixed
  | dynamic
  | diff
deriving DecidableEq

/-- An image without its parent. `curr_block` is `none` for -1. -/
structure MVHDMeta where
  f : File
  readonly : Bool
  error : Bool
  curr_sz : Nat
  disk_type : MVHDType
  bat_offset : Nat
  max_bat_ent : Nat
  block_sz : Nat
  block_offset : Nat → Nat
  sect_per_block : Nat
  curr_bitmap : Nat → BitVec 8
  sector_count : Nat
  curr_block : Option Nat

/-! ## Numbers and bits -/

/-- The difference of two numbers of 32 bits. -/
def sub32 (a b : Nat) : Nat := (a + 0x100000000 - b) % 0x100000000

def mvhd_to_be32 (val : Nat) : List (BitVec 8) :=
  [BitVec.ofNat 8 (val / 0x1000000), BitVec.ofNat 8 (val / 0x10000), BitVec.ofNat 8 (val / 0x100),
    BitVec.ofNat 8 val]

def VHD_SETBIT (a : Nat → BitVec 8) (k : Nat) : Nat → BitVec 8 :=
  Function.update a (k >>> 3) (a (k >>> 3) ||| 0x80#8 >>> (k &&& 7))

def VHD_TESTBIT (a : Nat → BitVec 8) (k : Nat) : Bool := a (k >>> 3) &&& 0x80#8 >>> (k &&& 7) ≠ 0

def conectix : List (BitVec 8) := [0x63, 0x6f, 0x6e, 0x65, 0x63, 0x74, 0x69, 0x78]

def mvhd_is_conectix_str (buffer : List (BitVec 8)) : Bool := buffer.take 8 = conectix

/-! ## Reads and writes of the file -/

def seek (m : MVHDMeta) (o : Nat) : MVHDMeta := { m with f := m.f.seek o }

/-- One item, over the old bytes of a buffer. -/
def fread (m : MVHDMeta) (old : List (BitVec 8)) : MVHDMeta × List (BitVec 8) × Bool :=
  let (f, bytes, ok) := m.f.fread old.length
  ({ m with f }, bytes ++ old.drop bytes.length, ok)

/-- One item. To write nothing at all counts as an error. -/
def fwrite (m : MVHDMeta) (xs : List (BitVec 8)) : MVHDMeta :=
  { m with f := m.f.fwrite xs, error := m.error || xs.isEmpty }

def zeros (n : Nat) : List (BitVec 8) := List.replicate n 0

/-- How many sectors are transferred, and how many are not. -/
def check_sectors (offset num_sectors total_sectors : Nat) : Nat × Nat :=
  if sub32 total_sectors offset < num_sectors then
    (sub32 total_sectors offset, num_sectors - sub32 total_sectors offset)
  else (num_sectors, 0)

/-- How many turns a loop from a sector to the last one makes. -/
def turns (offset transfer_sectors : Nat) : Nat :=
  (offset + transfer_sectors) % 0x100000000 - offset

def total_sectors (m : MVHDMeta) : Nat := m.curr_sz / MVHD_SECTOR_SIZE % 0x100000000

/-! ## Blocks -/

def mvhd_write_empty_sectors : Nat → MVHDMeta → MVHDMeta
  | 0, m => m
  | sector_count + 1, m => mvhd_write_empty_sectors sector_count (fwrite m (zeros MVHD_SECTOR_SIZE))

def bitmapSize (m : MVHDMeta) : Nat := m.sector_count * MVHD_SECTOR_SIZE

def read_sect_bitmap (m : MVHDMeta) (blk : Nat) : MVHDMeta :=
  if m.block_offset blk ≠ MVHD_SPARSE_BLK then
    let (f, bytes, ok) := (m.f.seek (m.block_offset blk * MVHD_SECTOR_SIZE)).fread (bitmapSize m)
    { m with
      f
      curr_bitmap := fun i => if i < bytes.length then bytes.getD i 0 else m.curr_bitmap i
      error := m.error || !ok
      curr_block := some blk }
  else
    { m with
      curr_bitmap := fun i => if i < bitmapSize m then 0 else m.curr_bitmap i
      curr_block := some blk }

def write_curr_sect_bitmap (m : MVHDMeta) : MVHDMeta :=
  match m.curr_block with
  | some blk =>
    fwrite (seek m (m.block_offset blk * MVHD_SECTOR_SIZE)) (slice m.curr_bitmap 0 (bitmapSize m))
  | none => m

def write_bat_entry (m : MVHDMeta) (blk : Nat) : MVHDMeta :=
  fwrite (seek m (m.bat_offset + blk * 4)) (mvhd_to_be32 (m.block_offset blk))

/-- The footer, and the place where it is and the block goes. -/
def takeFooter (m : MVHDMeta) : MVHDMeta × List (BitVec 8) :=
  let (f, footer, _) := (m.f.seekEnd MVHD_FOOTER_SIZE).fread MVHD_FOOTER_SIZE
  let footer := footer ++ zeros (MVHD_FOOTER_SIZE - footer.length)
  let f := f.seekEnd MVHD_FOOTER_SIZE
  if mvhd_is_conectix_str footer then ({ m with f }, footer)
  else
    -- the copy of the footer at the start of the file
    let (f, copy, ok) := (f.seek 0).fread MVHD_FOOTER_SIZE
    ({ m with f := f.seekEnd 0, error := m.error || !ok }, copy ++ footer.drop copy.length)

/-- To the next sector. -/
def pad (m : MVHDMeta) : MVHDMeta :=
  if m.f.pos % MVHD_SECTOR_SIZE ≠ 0 then
    fwrite m (zeros (MVHD_SECTOR_SIZE - m.f.pos % MVHD_SECTOR_SIZE))
  else m

def create_block (m : MVHDMeta) (blk : Nat) : MVHDMeta :=
  let (m, footer) := takeFooter m
  let m := pad m
  let sect_offset := m.f.pos / MVHD_SECTOR_SIZE % 0x100000000
  let m := mvhd_write_empty_sectors (m.sector_count + m.block_sz / MVHD_SECTOR_SIZE) m
  let m := mvhd_write_empty_sectors 5 m
  let m := fwrite m footer
  write_bat_entry { m with block_offset := Function.update m.block_offset blk sect_offset } blk

/-- Where a sector of a block is in the file. -/
def addr (m : MVHDMeta) (blk sib : Nat) : Nat :=
  (m.block_offset blk + m.sector_count + sib) * MVHD_SECTOR_SIZE

/-! ## Reads -/

/-- To the bitmap and the data of a block. -/
def enterRead (m : MVHDMeta) (blk sib : Nat) : MVHDMeta :=
  if m.curr_block ≠ some blk then
    let m := read_sect_bitmap m blk
    { m with f := m.f.seekCur (sib * MVHD_SECTOR_SIZE) }
  else if m.block_offset blk ≠ MVHD_SPARSE_BLK then seek m (addr m blk sib)
  else m

/-- One sector, into a buffer. -/
def readSector (m : MVHDMeta) (prev_blk : Option Nat) (s : Nat) (buff : List (BitVec 8)) :
    MVHDMeta × List (BitVec 8) :=
  let blk := s / m.sect_per_block
  let sib := s % m.sect_per_block
  let m := if some blk ≠ prev_blk then enterRead m blk sib else m
  if VHD_TESTBIT m.curr_bitmap sib then
    let (m, bytes, _) := fread m buff
    (m, bytes)
  else ({ m with f := m.f.seekCur MVHD_SECTOR_SIZE }, zeros MVHD_SECTOR_SIZE)

/-- An error of a parent is one of the image. -/
def raise : List MVHDMeta → List MVHDMeta
  | [] => []
  | m :: ms => { m with error := true } :: ms

def mvhd_fixed_write (m : MVHDMeta) (offset num_sectors : Nat) (in_buff : List (BitVec 8)) :
    MVHDMeta × Nat :=
  let check := check_sectors offset num_sectors (total_sectors m)
  (fwrite (seek m (offset * MVHD_SECTOR_SIZE)) (in_buff.take (check.1 * MVHD_SECTOR_SIZE)), check.2)

/-- To the bitmap and the data of a block. -/
def enterWrite (m : MVHDMeta) (blk sib : Nat) : MVHDMeta :=
  if m.curr_block ≠ some blk then
    let m := read_sect_bitmap m blk
    { m with f := m.f.seekCur (sib * MVHD_SECTOR_SIZE) }
  else seek m (addr m blk sib)

/-- The bitmap of the block before goes to the file. -/
def leaveBlock (m : MVHDMeta) (prev_blk : Option Nat) (blk : Nat) : MVHDMeta :=
  if m.curr_block ≠ some blk ∧ prev_blk ≠ none then write_curr_sect_bitmap m else m

def needBlock (m : MVHDMeta) (blk : Nat) : MVHDMeta :=
  if m.block_offset blk = MVHD_SPARSE_BLK then create_block (read_sect_bitmap m blk) blk else m

def writeSector (m : MVHDMeta) (prev_blk : Option Nat) (s : Nat) (buff : List (BitVec 8)) :
    MVHDMeta :=
  let blk := s / m.sect_per_block
  let sib := s % m.sect_per_block
  let m := needBlock (leaveBlock m prev_blk blk) blk
  let m := if some blk ≠ prev_blk then enterWrite m blk sib else m
  let m := fwrite m buff
  { m with curr_bitmap := VHD_SETBIT m.curr_bitmap sib }

/-- So many sectors. -/
def writeSectors (m : MVHDMeta) (prev_blk : Option Nat) (s : Nat) :
    Nat → List (BitVec 8) → MVHDMeta
  | 0, _ => m
  | n + 1, buff =>
    writeSectors (writeSector m prev_blk s (buff.take MVHD_SECTOR_SIZE))
      (some (s / m.sect_per_block)) (s + 1) n (buff.drop MVHD_SECTOR_SIZE)

/-- A write that starts inside of the image. -/
def writeInside (m : MVHDMeta) (offset n : Nat) (in_buff : List (BitVec 8)) : MVHDMeta :=
  if offset < total_sectors m then writeSectors m none offset n in_buff else m

def mvhd_sparse_diff_write (m : MVHDMeta) (offset num_sectors : Nat) (in_buff : List (BitVec 8)) :
    MVHDMeta × Nat :=
  let check := check_sectors offset num_sectors (total_sectors m)
  (write_curr_sect_bitmap (writeInside m offset (turns offset check.1) in_buff), check.2)

/-! ## Images -/

def mvhd_write_sectors (ms : List MVHDMeta) (offset num_sectors : Nat) (in_buff : List (BitVec 8)) :
    Option (List MVHDMeta × Nat) :=
  match ms with
  | [] => none
  | m :: ps =>
    if m.readonly then some (m :: ps, 0)
    else
      let r :=
        if m.disk_type = .fixed then mvhd_fixed_write m offset num_sectors in_buff
        else mvhd_sparse_diff_write m offset num_sectors in_buff
      some (r.1 :: ps, r.2)

/-- As many sectors as `zero_data` has. -/
def FORMAT_SECTORS : Nat := 64

def formatFull (offset : Nat) : Nat → List MVHDMeta → Option (Nat × List MVHDMeta)
  | 0, ms => some (offset, ms)
  | i + 1, ms =>
    match mvhd_write_sectors ms offset FORMAT_SECTORS
      (zeros (FORMAT_SECTORS * MVHD_SECTOR_SIZE)) with
    | none => none
    | some (ms, _) => formatFull ((offset + FORMAT_SECTORS) % 0x100000000) i ms

def mvhd_format_sectors (ms : List MVHDMeta) (offset num_sectors : Nat) :
    Option (List MVHDMeta × Nat) :=
  match formatFull offset (num_sectors / FORMAT_SECTORS) ms with
  | none => none
  | some (offset, ms) =>
    (mvhd_write_sectors ms offset (num_sectors % FORMAT_SECTORS)
      (zeros (FORMAT_SECTORS * MVHD_SECTOR_SIZE))).map fun (ms, _) => (ms, 0)

/-! ## To open an image -/

end blumach.minivhd
