-- Sector addresses and writes of an IDE hard disk, `disk/hdc_ide.c`: the
-- registers that name a sector, the step to the next one, and the three write
-- commands.
import Mathlib.Data.BitVec

namespace blumach.hdc_ide

/-- For the literals of `Fin 2`. -/
scoped instance neZero_2 : @NeZero Nat Zero.ofOfNat0 2 := ⟨by decide⟩

/-! ## The state -/

/-- The task file. -/
structure Tf where
  secount : BitVec 8
  cylinder : BitVec 16
  atastat : BitVec 8
  error : BitVec 8
  sector : BitVec 8
  head : BitVec 4
  lba : Bool
  pos : BitVec 32
deriving DecidableEq, Repr

inductive DriveType where
  | IDE_NONE | IDE_HDD | IDE_ATAPI
deriving DecidableEq, Repr

structure Ide where
  type : DriveType
  command : BitVec 8
  tf : Tf
  lba_addr : BitVec 32
  cfg_spt : BitVec 32
  cfg_hpc : BitVec 32
  params_specified : Bool
  blocksize : Nat
  blockcount : Nat
  sector_pos : Nat
deriving DecidableEq, Repr

def DRDY_STAT : BitVec 8 := 0x40
def DSC_STAT : BitVec 8 := 0x10
def DRQ_STAT : BitVec 8 := 0x08
def ERR_STAT : BitVec 8 := 0x01

def ABRT_ERR : BitVec 8 := 0x04
def IDNF_ERR : BitVec 8 := 0x10

/-! ## Sector addresses -/

/-- `secount ? secount : 256` -/
def Tf.count (tf : Tf) : Nat := if tf.secount ≠ 0 then tf.secount.toNat else 256

/-- `sector ? (sector - 1) : 0` -/
def Tf.index (tf : Tf) : BitVec 8 := if tf.sector ≠ 0 then tf.sector - 1 else 0

/-- The sector offset for the current register values. -/
def ide_get_sector (ide : Ide) : Nat :=
  if ide.tf.lba then ide.lba_addr.toNat
  else
    (ide.tf.cylinder.toNat * ide.cfg_hpc.toNat + ide.tf.head.toNat) * ide.cfg_spt.toNat +
      ide.tf.index.toNat

/-- The last sector offset for the current register values. -/
def ide_get_last_sector (ide : Ide) : Nat :=
  let add := ide.tf.count - 1
  if ide.tf.lba then ide.lba_addr.toNat + add
  else
    (ide.tf.cylinder.toNat * ide.cfg_hpc.toNat + ide.tf.head.toNat) * ide.cfg_spt.toNat +
      ide.tf.index.toNat + add

/-- Move to the next sector. -/
def ide_next_sector (ide : Ide) : Ide :=
  let sector := ide.tf.sector.setWidth 32
  let head := ide.tf.head.setWidth 32
  if ide.tf.lba then
    { ide with
      lba_addr := ide.lba_addr + 1
      tf := { ide.tf with sector := sector.setWidth 8, head := head.setWidth 4 } }
  else
    let sector := sector + 1
    if sector = 0 ∨ sector = ide.cfg_spt + 1 then
      let sector : BitVec 32 := 1
      let head := head + 1
      if head = ide.cfg_hpc then
        let head : BitVec 32 := 0
        { ide with tf := { ide.tf with
            sector := sector.setWidth 8
            head := head.setWidth 4
            cylinder := ide.tf.cylinder + 1 } }
      else
        { ide with tf := { ide.tf with
            sector := sector.setWidth 8
            head := head.setWidth 4 } }
    else
      { ide with tf := { ide.tf with
          sector := sector.setWidth 8
          head := head.setWidth 4 } }

/-- WIN_SPECIFY: the geometry of the drive, from the sector count and the head. -/
def win_specify (ide : Ide) : Ide :=
  { ide with
    cfg_spt := if ide.tf.secount = 0 then 256 else ide.tf.secount.setWidth 32
    cfg_hpc := ide.tf.head.setWidth 32 + 1
    params_specified := true
    command := 0x00
    tf := { ide.tf with atastat := DRDY_STAT ||| DSC_STAT, error := 1 } }

/-! ## The image -/

abbrev Sector := Fin 512 → BitVec 8

abbrev Image := Nat → Sector

/-- The sectors are written one after the other. -/
def hdd_image_write (sector : Nat) : List Sector → Image → Image
  | [], image => image
  | data :: rest, image => hdd_image_write (sector + 1) rest (Function.update image sector data)

/-! ## The write commands -/

/-- The checks of the three write commands on the sectors that the registers name. -/
def outOfRange (last : BitVec 32) (ide : Ide) : Bool :=
  (!ide.tf.lba && decide (ide.cfg_spt = 0)) || decide (ide_get_sector ide > last.toNat) ||
    decide (ide_get_last_sector ide > last.toNat)

/-- The end of `ide_callback`, with an error. -/
def fail (err : BitVec 8) (ide : Ide) : Ide :=
  { ide with tf := { ide.tf with
      atastat := DRDY_STAT ||| ERR_STAT ||| DSC_STAT
      error := err
      pos := 0 } }

/-- A drive, its image, and whether the command goes on. -/
structure Outcome where
  ide : Ide
  image : Image
  more : Bool

/-- After a sector of WIN_WRITE or WIN_WRITE_MULTIPLE. -/
def sectorDone (ide : Ide) (image : Image) : Outcome :=
  let ide := { ide with tf := { ide.tf with secount := ide.tf.secount - 1 } }
  if ide.tf.secount ≠ 0 then
    ⟨ide_next_sector { ide with tf := { ide.tf with
        atastat := DRQ_STAT ||| DRDY_STAT ||| DSC_STAT
        pos := 0 } }, image, true⟩
  else
    ⟨{ ide with
      command := 0xff
      tf := { ide.tf with atastat := DRDY_STAT ||| DSC_STAT } }, image, false⟩

/-- WIN_WRITE: one sector, with the data that the host has put into the buffer. -/
def win_write (last : BitVec 32) (buffer : Sector) (ide : Ide) (image : Image) : Outcome :=
  if ide.type = .IDE_ATAPI then ⟨fail ABRT_ERR ide, image, false⟩
  else if outOfRange last ide then ⟨fail IDNF_ERR ide, image, false⟩
  else sectorDone ide (hdd_image_write (ide_get_sector ide) [buffer] image)

/-- WIN_WRITE_MULTIPLE: one sector, with an interrupt only at the end of a block. -/
def win_write_multiple (last : BitVec 32) (buffer : Sector) (ide : Ide) (image : Image) :
    Outcome :=
  if ide.type = .IDE_ATAPI ∨ ide.blocksize = 0 then ⟨fail ABRT_ERR ide, image, false⟩
  else if outOfRange last ide then ⟨fail IDNF_ERR ide, image, false⟩
  else
    let image := hdd_image_write (ide_get_sector ide) [buffer] image
    let ide := { ide with blockcount := ide.blockcount + 1 }
    let ide :=
      if ide.blockcount ≥ ide.blocksize ∨ ide.tf.secount = 1 then { ide with blockcount := 0 }
      else ide
    sectorDone ide image

/-- The write command that goes sector by sector. -/
inductive PioCommand where
  | WIN_WRITE | WIN_WRITE_MULTIPLE
deriving DecidableEq, Repr

def PioCommand.callback : PioCommand → BitVec 32 → Sector → Ide → Image → Outcome
  | .WIN_WRITE => win_write
  | .WIN_WRITE_MULTIPLE => win_write_multiple

/-- The host gives the sectors one after the other, as long as the drive asks for more. -/
def PioCommand.run (command : PioCommand) (last : BitVec 32) : List Sector → Ide → Image → Outcome
  | [], ide, image => ⟨ide, image, true⟩
  | data :: rest, ide, image =>
    let outcome := command.callback last data ide image
    if outcome.more then command.run last rest outcome.ide outcome.image else outcome

/-- WIN_WRITE_DMA on a board with bus mastering, once the bus master has brought the sectors. -/
def win_write_dma (last : BitVec 32) (sector_buffer : List Sector) (ide : Ide) (image : Image) :
    Outcome :=
  if ide.type = .IDE_ATAPI then ⟨fail ABRT_ERR ide, image, false⟩
  else if outOfRange last ide then ⟨fail IDNF_ERR ide, image, false⟩
  else
    let ide := { ide with sector_pos := ide.tf.count }
    let image := hdd_image_write (ide_get_sector ide) (sector_buffer.take ide.sector_pos) image
    ⟨{ ide with tf := { ide.tf with atastat := DRDY_STAT ||| DSC_STAT } }, image, false⟩

end blumach.hdc_ide
