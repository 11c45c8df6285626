-- The reads of an IDE board, `disk/hdc_ide.c`. A read command starts its read of the image at
-- once, in a worker of the drive, and the callback that comes later takes the result. What a
-- drive for packets does, the commands that do not read, and all times are left open.
import BluMach.HdcIde

namespace blumach.hdc_ide

def BSY_STAT : BitVec 8 := 0x80
def READY_STAT : BitVec 8 := 0x40
def UNC_ERR : BitVec 8 := 0x40

def WIN_SRST : BitVec 8 := 0x08
def WIN_READ : BitVec 8 := 0x20
def WIN_READ_NORETRY : BitVec 8 := 0x21
def WIN_VERIFY : BitVec 8 := 0x40
def WIN_DRIVE_DIAGNOSTICS : BitVec 8 := 0x90
def WIN_PACKETCMD : BitVec 8 := 0xa0
def WIN_READ_MULTIPLE : BitVec 8 := 0xc4
def WIN_WRITE_MULTIPLE : BitVec 8 := 0xc5
def WIN_READ_DMA : BitVec 8 := 0xc8
def WIN_READ_DMA_ALT : BitVec 8 := 0xc9
def WIN_SETIDLE1 : BitVec 8 := 0xe3
def WIN_READ_BUFFER : BitVec 8 := 0xe4
def WIN_IDENTIFY : BitVec 8 := 0xec
def WIN_INVALID : BitVec 8 := 0xff

/-! ## The state -/

abbrev Sectors := Nat → Sector

/-- A drive, as the guest and the image know it. -/
structure Disk where
  ide : Ide
  do_initial_read : Bool
  reset : Bool
  /-- `hdd_image_get_last_sector` -/
  last : BitVec 32
  speed_preset : Nat
  buffer : Sector
  sector_buffer : Sectors
  image : Image

/-- What the worker has to read, with its result once it is done. -/
structure Request where
  sector : BitVec 32
  count : Nat
  result : Option Bool
deriving DecidableEq, Repr

structure Drive where
  disk : Disk
  /-- `pending`, with the request -/
  pending : Option Request

/-- A board with its drives. Where there is no second drive, the first one has a shadow that
shares its task file. -/
structure Board (M : Type) where
  drives : Fin 2 → Drive
  shadow : Bool
  cur_dev : Fin 2
  devctl : BitVec 8
  diag : Bool
  force_ata3 : Bool
  /-- `bm != NULL` -/
  bm : Bool
  rest : M

/-- What is left open: the read of an image, with whether it went well, the transfer of the bus
master if it has one, the interrupts, and the other commands and drives. None of them knows of the
worker, and each of them keeps to one drive. -/
structure Host (M : Type) where
  hdd_image_read : Image → BitVec 32 → Nat → Sectors → Sectors × Bool
  dma : Option (Sectors → Nat → M → Nat × M)
  irq_raise : Fin 2 → M → M
  irq_lower : Fin 2 → M → M
  select : Fin 2 → M → M
  irq_update : M → M
  features : Fin 2 → BitVec 8 → M → M
  stop : Fin 2 → M → M
  atapi_is_early : Fin 2 → M → Bool
  command : BitVec 8 → Fin 2 → Disk → M → Disk × M
  callback : Fin 2 → Disk → M → Disk × M
  packet_read : Fin 2 → Disk → M → BitVec 16 × Disk × M
  packet_write : BitVec 16 → Fin 2 → Disk → M → Disk × M

/-! ## The worker -/

section

variable {M : Type} (host : Host M)

/-- The turn of the worker: it reads what is asked for, once. -/
def ide_async_read_worker (drive : Drive) : Drive :=
  match drive.pending with
  | some ⟨sector, count, none⟩ =>
    let (sectors, well) :=
      host.hdd_image_read drive.disk.image sector count drive.disk.sector_buffer
    { disk := { drive.disk with sector_buffer := sectors }
      pending := some ⟨sector, count, some well⟩ }
  | _ => drive

def ide_async_read_start (sector : BitVec 32) (count : Nat) (drive : Drive) : Drive :=
  if drive.pending.isSome ∨ count = 0 then drive
  else { drive with pending := some ⟨sector, count, none⟩ }

/-- The result is waited for and taken, when there is a request. -/
def ide_async_read_finish (drive : Drive) : Option (Drive × Bool) :=
  let drive := ide_async_read_worker host drive
  drive.pending.map fun r => ({ drive with pending := none }, r.result.getD false)

def ide_async_read_discard (drive : Drive) : Drive :=
  match ide_async_read_finish host drive with
  | some (drive, _) => drive
  | none => drive

def ide_async_read_start_current (drive : Drive) : Drive :=
  let ide := drive.disk.ide
  if ide.type ≠ .IDE_HDD ∨ (ide.command = WIN_READ_MULTIPLE ∧ ide.blocksize = 0) ∨
      outOfRange drive.disk.last ide = true then drive
  else ide_async_read_start (BitVec.ofNat 32 (ide_get_sector ide)) ide.tf.count drive

/-! ## The callbacks of a drive -/

def Drive.onIde (f : Ide → Ide) (drive : Drive) : Drive :=
  { drive with disk := { drive.disk with ide := f drive.disk.ide } }

def Drive.onTf (f : Tf → Tf) (drive : Drive) : Drive :=
  drive.onIde fun ide => { ide with tf := f ide.tf }

/-- The read of a command, in its first callback: the result of the worker, or a read now. -/
def initialRead (drive : Drive) : Drive × Bool :=
  if drive.disk.do_initial_read then
    let drive := { drive with disk := { drive.disk with do_initial_read := false } }
    match ide_async_read_finish host drive with
    | some r => r
    | none =>
      let disk := drive.disk
      let (sectors, well) := host.hdd_image_read disk.image
        (BitVec.ofNat 32 (ide_get_sector disk.ide)) disk.ide.tf.count disk.sector_buffer
      ({ drive with disk := { disk with sector_buffer := sectors } }, well)
  else (drive, true)

/-- The next sector is put where the guest reads it. -/
def giveSector (drive : Drive) : Drive :=
  let disk := drive.disk
  { drive with disk := { disk with
    buffer := disk.sector_buffer disk.ide.sector_pos
    ide := { disk.ide with
      sector_pos := disk.ide.sector_pos + 1
      tf := { disk.ide.tf with pos := 0, atastat := DRQ_STAT ||| DRDY_STAT ||| DSC_STAT } } } }

def failed (d : Fin 2) (err : BitVec 8) (drive : Drive) (rest : M) : Drive × M :=
  (drive.onIde (fail err), host.irq_raise d rest)

/-- The first part of WIN_READ and WIN_READ_MULTIPLE. -/
def readSector (drive : Drive) : Drive × Bool :=
  let drive := drive.onIde fun ide =>
    if drive.disk.do_initial_read then { ide with sector_pos := 0 } else ide
  let (drive, well) := initialRead host drive
  (giveSector drive, well)

def win_read (d : Fin 2) (drive : Drive) (rest : M) : Drive × M :=
  if outOfRange drive.disk.last drive.disk.ide then failed host d IDNF_ERR drive rest
  else
    let (drive, well) := readSector host drive
    let rest := host.irq_raise d rest
    if well then (drive, rest) else failed host d UNC_ERR drive rest

def win_read_multiple (d : Fin 2) (drive : Drive) (rest : M) : Drive × M :=
  if drive.disk.ide.blocksize = 0 then failed host d ABRT_ERR drive rest
  else if outOfRange drive.disk.last drive.disk.ide then failed host d IDNF_ERR drive rest
  else
    let (drive, well) := readSector host drive
    let rest := if drive.disk.ide.blockcount = 0 then host.irq_raise d rest else rest
    let drive := drive.onIde fun ide =>
      let blockcount := ide.blockcount + 1
      { ide with blockcount := if blockcount ≥ ide.blocksize then 0 else blockcount }
    if well then (drive, rest) else failed host d UNC_ERR drive rest

def win_read_dma (force_ata3 bm : Bool) (d : Fin 2) (drive : Drive) (rest : M) : Drive × M :=
  if force_ata3 || !bm then failed host d ABRT_ERR drive rest
  else if outOfRange drive.disk.last drive.disk.ide then failed host d IDNF_ERR drive rest
  else
    let drive := drive.onIde fun ide =>
      { ide with sector_pos := ide.tf.count, tf := { ide.tf with pos := 0 } }
    let (drive, well) := initialRead host drive
    if !well then failed host d UNC_ERR drive rest
    else
      match host.dma with
      | none => failed host d ABRT_ERR drive rest
      | some dma =>
        let (ret, rest) := dma drive.disk.sector_buffer drive.disk.ide.sector_pos rest
        if ret = 2 then
          (drive.onTf fun tf => { tf with atastat := DRQ_STAT ||| DRDY_STAT ||| DSC_STAT }, rest)
        else if ret % 2 = 1 then
          (drive.onTf fun tf => { tf with atastat := DRDY_STAT ||| DSC_STAT },
            host.irq_raise d rest)
        else failed host d ABRT_ERR drive rest

def ide_callback (force_ata3 bm : Bool) (d : Fin 2) (drive : Drive) (rest : M) : Drive × M :=
  let others : Drive × M :=
    let (disk, rest) := host.callback d drive.disk rest
    ({ drive with disk := disk }, rest)
  let command := drive.disk.ide.command
  if drive.disk.ide.type ≠ .IDE_HDD then others
  else if command = WIN_READ ∨ command = WIN_READ_NORETRY then win_read host d drive rest
  else if command = WIN_READ_DMA ∨ command = WIN_READ_DMA_ALT then
    win_read_dma host force_ata3 bm d drive rest
  else if command = WIN_READ_MULTIPLE then win_read_multiple host d drive rest
  else others

/-! ## The data port -/

/-- The word of the buffer at a position. -/
def wordAt (buffer : Sector) (pos : BitVec 32) : BitVec 16 :=
  buffer (Fin.ofNat 512 (pos.toNat + 1)) ++ buffer (Fin.ofNat 512 pos.toNat)

/-- The guest has read the last word of the buffer. -/
def bufferRead (force_ata3 bm : Bool) (d : Fin 2) (drive : Drive) (rest : M) : Drive × M :=
  let drive := drive.onTf fun tf => { tf with pos := 0, atastat := DRDY_STAT ||| DSC_STAT }
  let command := drive.disk.ide.command
  if command = WIN_READ ∨ command = WIN_READ_NORETRY ∨ command = WIN_READ_MULTIPLE then
    let drive := drive.onTf fun tf => { tf with secount := tf.secount - 1 }
    if drive.disk.ide.tf.secount ≠ 0 then
      let drive := (drive.onIde ide_next_sector).onTf fun tf =>
        { tf with atastat := BSY_STAT ||| READY_STAT ||| DSC_STAT }
      if command = WIN_READ_MULTIPLE ∧
          (drive.disk.speed_preset = 0 ∨ drive.disk.ide.blockcount ≠ 0) then
        ide_callback host force_ata3 bm d drive rest
      else (drive, rest)
    else (drive.onIde fun ide => { ide with command := WIN_INVALID }, rest)
  else (drive.onIde fun ide => { ide with command := WIN_INVALID }, rest)

def ide_read_data (force_ata3 bm : Bool) (d : Fin 2) (drive : Drive) (rest : M) :
    BitVec 16 × Drive × M :=
  let ide := drive.disk.ide
  match ide.type with
  | .IDE_NONE => (0xff7f, drive, rest)
  | .IDE_ATAPI =>
    let (ret, disk, rest) := host.packet_read d drive.disk rest
    (ret, { drive with disk := disk }, rest)
  | .IDE_HDD =>
    if ide.command = WIN_INVALID then (0, drive, rest)
    else if ide.command = WIN_PACKETCMD then
      (0, drive.onTf fun tf => { tf with pos := 0 }, rest)
    else
      let ret := wordAt drive.disk.buffer ide.tf.pos
      let drive := drive.onTf fun tf => { tf with pos := tf.pos + 2 }
      if drive.disk.ide.tf.pos ≥ 512 then (ret, bufferRead host force_ata3 bm d drive rest)
      else (ret, drive, rest)

/-- The buffer with a word put at a position. -/
def putWord (val : BitVec 16) (pos : BitVec 32) (buffer : Sector) : Sector :=
  Function.update (Function.update buffer (Fin.ofNat 512 pos.toNat) (val.extractLsb' 0 8))
    (Fin.ofNat 512 (pos.toNat + 1)) (val.extractLsb' 8 8)

def ide_write_data (force_ata3 bm : Bool) (val : BitVec 16) (d : Fin 2) (drive : Drive)
    (rest : M) : Drive × M :=
  let ide := drive.disk.ide
  match ide.type with
  | .IDE_NONE => (drive, rest)
  | .IDE_ATAPI =>
    let (disk, rest) := host.packet_write val d drive.disk rest
    ({ drive with disk := disk }, rest)
  | .IDE_HDD =>
    if ide.command = WIN_INVALID then (drive, rest)
    else if ide.command = WIN_PACKETCMD then (drive.onTf fun tf => { tf with pos := 0 }, rest)
    else
      let drive := { drive with disk :=
        { drive.disk with buffer := putWord val ide.tf.pos drive.disk.buffer } }
      let drive := drive.onTf fun tf => { tf with pos := tf.pos + 2 }
      if drive.disk.ide.tf.pos ≥ 512 then
        let drive := drive.onTf fun tf => { tf with pos := 0, atastat := BSY_STAT }
        let ide := drive.disk.ide
        -- the sectors of a block but its last one are written at once
        if ide.command = WIN_WRITE_MULTIPLE ∧ (drive.disk.speed_preset = 0 ∨
            ¬(ide.blockcount + 1 ≥ ide.blocksize ∨ ide.tf.secount = 1)) then
          ide_callback host force_ata3 bm d drive rest
        else (drive, rest)
      else (drive, rest)

end

/-! ## The board -/

def busy (tf : Tf) : Bool := tf.atastat &&& (BSY_STAT ||| DRQ_STAT) ≠ 0

namespace Board

variable {M : Type} (b : Board M)

def onDrive (ch : Fin 2) (f : Drive → Drive) : Board M :=
  { b with drives := Function.update b.drives ch (f (b.drives ch)) }

/-- What a drive does, with all that is not the board's. -/
def run (ch : Fin 2) (f : Drive → M → Drive × M) : Board M :=
  let (drive, rest) := f (b.drives ch) b.rest
  { b.onDrive ch (fun _ => drive) with rest := rest }

/-- `type & IDE_SHADOW` -/
def isShadow (ch : Fin 2) : Bool := b.shadow && ch == 1

/-- The drive that has the task file. -/
def home (ch : Fin 2) : Fin 2 := if b.isShadow ch then 0 else ch

def tf (ch : Fin 2) : Tf := (b.drives (b.home ch)).disk.ide.tf

def onTf (ch : Fin 2) (f : Tf → Tf) : Board M := b.onDrive (b.home ch) fun drive => drive.onTf f

def typeIs (ch : Fin 2) (type : DriveType) : Bool :=
  !b.isShadow ch && (b.drives ch).disk.ide.type == type

/-- A change to a drive that has time for it. -/
def whenFree (ch : Fin 2) (f : Board M → Board M) : Board M := if busy (b.tf ch) then b else f b

end Board

section

variable {M : Type} (host : Host M)

def ide_set_signature (ch : Fin 2) (b : Board M) : Board M :=
  let signature : BitVec 16 :=
    match (b.drives (b.home ch)).disk.ide.type with
    | .IDE_NONE => 0x7f7f
    | .IDE_HDD => 0x0000
    | .IDE_ATAPI => 0xeb14
  b.onTf ch fun tf => { tf with sector := 1, head := 0, secount := 1, cylinder := signature }

def dev_reset (ch : Fin 2) (b : Board M) : Board M :=
  let b := ide_set_signature ch (b.onDrive ch (ide_async_read_discard host))
  if b.typeIs ch .IDE_ATAPI then { b with rest := host.stop ch b.rest } else b

/-- Both drives after a reset, as long as it takes. -/
def posted (ch : Fin 2) (b : Board M) : Board M :=
  b.onTf ch fun tf => { tf with atastat := BSY_STAT, error := 1 }

def ide_write_devctl (addr : BitVec 16) (val : BitVec 8) (b : Board M) : Board M :=
  let ch := b.cur_dev
  if addr.getLsbD 0 || (b.typeIs ch .IDE_NONE && b.typeIs (1 - ch) .IDE_NONE) then b
  else
    let b := { b with diag := false }
    let b :=
      if val.getLsbD 2 && !b.devctl.getLsbD 2 then
        let b := if b.typeIs ch .IDE_NONE then b else posted ch b
        if b.typeIs (1 - ch) .IDE_NONE then b else posted (1 - ch) b
      else if !val.getLsbD 2 && b.devctl.getLsbD 2 then
        let b := posted ch (dev_reset host ch (dev_reset host ch b))
        let b := posted (1 - ch) (dev_reset host (1 - ch) b)
        let b := b.onDrive ch fun drive => { drive with disk := { drive.disk with reset := true } }
        { b with diag := false, cur_dev := 0, rest := host.select 0 b.rest }
      else b
    { b with devctl := val, rest := host.irq_update b.rest }

def ide_reset_registers (ch : Fin 2) (b : Board M) : Board M :=
  let b := ide_set_signature ch b
  let b := b.onTf ch fun tf => { tf with atastat := DRDY_STAT ||| DSC_STAT, error := 1 }
  b.onDrive ch fun drive => { drive with disk := { drive.disk with reset := false } }

/-- One of the registers that both drives take. -/
def writeRegister (addr : BitVec 3) (val : BitVec 8) (ch : Fin 2) (b : Board M) : Board M :=
  b.whenFree ch fun b =>
    match addr with
    | 1 => { b with rest := host.features ch val b.rest }
    | 2 => b.onTf ch fun tf => { tf with secount := val }
    | 3 =>
      (b.onTf ch fun tf => { tf with sector := val }).onDrive ch fun drive =>
        drive.onIde fun ide =>
          { ide with lba_addr := ide.lba_addr &&& 0xfffff00 ||| val.setWidth 32 }
    | 4 =>
      if b.isShadow ch then b
      else
        (b.onTf ch fun tf =>
          { tf with cylinder := tf.cylinder &&& 0xff00 ||| val.setWidth 16 }).onDrive ch
            fun drive =>
            drive.onIde fun ide =>
              { ide with lba_addr := ide.lba_addr &&& 0xfff00ff ||| val.setWidth 32 <<< 8 }
    | 5 =>
      if b.isShadow ch then b
      else
        (b.onTf ch fun tf =>
          { tf with cylinder := tf.cylinder &&& 0xff ||| val.setWidth 16 <<< 8 }).onDrive ch
            fun drive => drive.onIde fun ide =>
              { ide with lba_addr := ide.lba_addr &&& 0xf00ffff ||| val.setWidth 32 <<< 16 }
    | _ => b

/-- A write to the Drive/Head register, of a drive on the board that is selected by it. -/
def writeHead (val : BitVec 8) (from_ ch : Fin 2) (b : Board M) : Board M :=
  b.whenFree ch fun b =>
    let b := b.onTf ch fun tf =>
      { tf with head := val.extractLsb' 0 4, lba := val.getLsbD 6 }
    let head := (b.tf from_).head
    b.onDrive ch fun drive => drive.onIde fun ide =>
      { ide with lba_addr := ide.lba_addr &&& 0x0ffffff ||| head.setWidth 32 <<< 24 }

def selectDrive (val : BitVec 8) (b : Board M) : Board M :=
  let ch : Fin 2 := if val.getLsbD 4 then 1 else 0
  if b.cur_dev ≠ ch then
    let b := { b with cur_dev := ch, rest := host.select ch b.rest }
    if (b.drives ch).disk.reset || (b.drives (1 - ch)).disk.reset then
      ide_reset_registers (1 - ch) (ide_reset_registers ch b)
    else writeHead val ch (1 - ch) (writeHead val ch ch { b with rest := host.irq_update b.rest })
  else writeHead val ch (1 - ch) (writeHead val ch ch b)

/-- The command that starts a read. -/
def readCommand (val prev : BitVec 8) (ch : Fin 2) (b : Board M) : Board M :=
  let b := b.onDrive ch fun drive => drive.onIde fun ide =>
    if val = WIN_READ_MULTIPLE then { ide with blockcount := 0 } else ide
  let b := b.onTf ch fun tf => { tf with atastat := BSY_STAT }
  let b := b.onDrive ch fun drive =>
    { drive with disk := { drive.disk with do_initial_read := true } }
  if val = WIN_READ ∧ prev = WIN_SETIDLE1 then b.run ch (ide_callback host b.force_ata3 b.bm ch)
  else b.onDrive ch ide_async_read_start_current

def driveDiagnostics (b : Board M) : Board M :=
  let b := { b with cur_dev := 0, rest := host.select 0 b.rest }
  let b := posted 0 (dev_reset host 0 b)
  let b := posted 1 (dev_reset host 1 b)
  let b := b.onDrive 0 fun drive => { drive with disk := { drive.disk with reset := true } }
  { b with diag := true }

def isRead (val : BitVec 8) : Bool :=
  val = WIN_READ || val = WIN_READ_NORETRY || val = WIN_READ_MULTIPLE || val = WIN_READ_DMA ||
    val = WIN_READ_DMA_ALT

/-- The drive takes no command now, except the few that it takes at any time. -/
def refuses (val : BitVec 8) (b : Board M) : Bool :=
  let ch := b.cur_dev
  let prev := (b.drives ch).disk.ide.command
  busy (b.tf ch) && (val != WIN_SRST || !b.typeIs ch .IDE_ATAPI) &&
    (val != WIN_VERIFY || prev != WIN_IDENTIFY) && (val != WIN_READ_BUFFER || prev != WIN_IDENTIFY)

def writeCommand (val : BitVec 8) (b : Board M) : Board M :=
  let ch := b.cur_dev
  let prev := (b.drives ch).disk.ide.command
  if refuses val b then b
  else if b.typeIs ch .IDE_NONE || (b.isShadow ch && val != WIN_DRIVE_DIAGNOSTICS) then b
  else
    let b := { b with rest := host.irq_lower ch b.rest }
    let b := b.onDrive ch fun drive => drive.onIde fun ide => { ide with command := val }
    let b := b.onTf ch fun tf => { tf with error := 0 }
    if val = WIN_DRIVE_DIAGNOSTICS then driveDiagnostics host b
    else if isRead val && b.typeIs ch .IDE_HDD then readCommand host val prev ch b
    else
      b.run ch fun drive rest =>
        let (disk, rest) := host.command val ch drive.disk rest
        ({ drive with disk := disk }, rest)

/-- An access to the data port, which a shadow does not have. -/
def onData (f : Drive → M → Drive × M) (b : Board M) : Board M :=
  if b.isShadow b.cur_dev then b else b.run b.cur_dev f

def ide_writeb (addr : BitVec 3) (val : BitVec 8) (b : Board M) : Board M :=
  let ch := b.cur_dev
  if addr = 0 then onData (ide_write_data host b.force_ata3 b.bm (val ++ val) ch) b
  else if addr = 6 then selectDrive host val b
  else if addr = 7 then writeCommand host val b
  else writeRegister host addr val (1 - ch) (writeRegister host addr val ch b)

def ide_board_callback (b : Board M) : Board M :=
  let ready := fun (i : Fin 2) (b : Board M) =>
    let status : BitVec 8 :=
      if b.typeIs i .IDE_ATAPI && !host.atapi_is_early i b.rest then 0 else DRDY_STAT ||| DSC_STAT
    (b.onTf i fun tf => { tf with atastat := status }).onDrive i fun drive =>
      { drive with disk := { drive.disk with reset := false } }
  let b := ready 0 (ready 1 { b with cur_dev := 0 })
  if b.diag then
    let b := { b with diag := false }
    if !b.typeIs 0 .IDE_ATAPI || host.atapi_is_early 0 b.rest then
      { b with rest := host.irq_raise 0 b.rest }
    else b
  else b

/-! ## Runs -/

inductive Op (M : Type) where
  | ide_writeb (addr : BitVec 3) (val : BitVec 8)
  | ide_write_data (val : BitVec 16)
  | ide_read_data
  | ide_write_devctl (addr : BitVec 16) (val : BitVec 8)
  /-- The timer of a drive; that of a shadow never runs. -/
  | ide_callback (d : Fin 2)
  | ide_board_callback
  /-- A turn of the worker of a drive. -/
  | worker (d : Fin 2)
  /-- The guest reads a status, or sets up what is left open here. -/
  | other (f : M → M)

def step (b : Board M) : Op M → Board M
  | .ide_writeb addr val => ide_writeb host addr val b
  | .ide_write_data val =>
    onData (ide_write_data host b.force_ata3 b.bm val b.cur_dev) b
  | .ide_read_data =>
    onData (fun drive rest =>
      (ide_read_data host b.force_ata3 b.bm b.cur_dev drive rest).2) b
  | .ide_write_devctl addr val => ide_write_devctl host addr val b
  | .ide_callback d =>
    if b.isShadow d then b else b.run d (ide_callback host b.force_ata3 b.bm d)
  | .ide_board_callback => ide_board_callback host b
  | .worker d => b.onDrive d (ide_async_read_worker host)
  | .other f => { b with rest := f b.rest }

end

end blumach.hdc_ide
