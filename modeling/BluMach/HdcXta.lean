-- The XTA hard disk controllers of `hdc_xta.c`: the registers, and the commands that the timer
-- callback runs. The buffer pointer is an area and an offset in it.
import Mathlib.Data.Nat.Notation
import Mathlib.Logic.Function.Iterate
import Mathlib.Algebra.Group.Nat.Defs

namespace blumach.hdc_xta

/-- For the literals of `Fin 6`. -/
scoped instance neZero_6 : @NeZero Nat Zero.ofOfNat0 6 := ⟨by decide⟩

abbrev Byte := BitVec 8

def SECTOR_SIZE : Nat := 512
def LONG_SECTOR_SIZE : Nat := 516

/-! ## Constants -/

inductive HdcState where
  | STATE_IDLE
  | STATE_RECV
  | STATE_RDATA
  | STATE_RDONE
  | STATE_SEND
  | STATE_SDATA
  | STATE_SDONE
  | STATE_COMPL
  deriving DecidableEq, Repr

open HdcState

def CMD_TEST_READY : Byte := 0x00
def CMD_RECALIBRATE : Byte := 0x01
def CMD_READ_SENSE : Byte := 0x03
def CMD_FORMAT_DRIVE : Byte := 0x04
def CMD_READ_VERIFY : Byte := 0x05
def CMD_FORMAT_TRACK : Byte := 0x06
def CMD_READ_SECTORS : Byte := 0x08
def CMD_WRITE_SECTORS : Byte := 0x0a
def CMD_SEEK : Byte := 0x0b
def CMD_SET_DRIVE_PARAMS : Byte := 0x0c
def CMD_READ_SECTOR_BUFFER : Byte := 0x0e
def CMD_WRITE_SECTOR_BUFFER : Byte := 0x0f
def CMD_RAM_DIAGS : Byte := 0xe0
def CMD_DRIVE_DIAGS : Byte := 0xe3
def CMD_CTRL_DIAGS : Byte := 0xe4
def CMD_READ_LONG : Byte := 0xe5
def CMD_WRITE_LONG : Byte := 0xe6

def STAT_REQ : Byte := 0x01
def STAT_IO : Byte := 0x02
def STAT_CD : Byte := 0x04
def STAT_BSY : Byte := 0x08
def STAT_DRQ : Byte := 0x10
def STAT_IRQ : Byte := 0x20
def STAT_DCB : Byte := 0x80

def ERR_NOERROR : Byte := 0x00
def ERR_NOTRDY : Byte := 0x04
def ERR_SEEK : Byte := 0x15
def ERR_BADTRK : Byte := 0x19
def ERR_ILLCMD : Byte := 0x20
def ERR_ILLADDR : Byte := 0x21

def COMP_DRIVE : Byte := 0x20
def COMP_ERR : Byte := 0x02

def IRQ_ENA : Byte := 0x02
def DMA_ENA : Byte := 0x01

def DMA_NODATA : Int := -1

/-! ## State -/

/-- `drive_t`, with the active geometry. -/
structure Drive where
  present : Bool
  hdd_num : Byte
  cur_cyl : BitVec 16
  spt : Byte
  hpc : Byte
  tracks : BitVec 16
  cfg_spt : Byte

/-- The arrays that the buffer pointer is set to. -/
inductive Area where
  | dcb | data | sector_buf
  deriving DecidableEq, Repr

def Area.size : Area → Nat
  | .dcb => 6
  | .data => LONG_SECTOR_SIZE
  | .sector_buf => LONG_SECTOR_SIZE

structure Ptr where
  area : Area
  off : Nat
  deriving DecidableEq, Repr

abbrev Buffer := Vector Byte LONG_SECTOR_SIZE

/-- An access to the image of a disk. -/
inductive Touch where
  | read (hdd_num : Byte) (addr : Nat)
  | write (hdd_num : Byte) (addr : Nat) (buff : Buffer)

def Touch.addr : Touch → Nat
  | .read _ addr => addr
  | .write _ addr _ => addr

/-- `hdc_t`. -/
structure Hdc where
  type : Nat
  sw : Byte
  state : HdcState
  sense : Byte
  status : Byte
  intr : Byte
  /-- The timer is on. -/
  timer : Bool
  irq : Bool
  buf_idx : Nat
  buf_len : Nat
  buf_ptr : Option Ptr
  dcb : Vector Byte 6
  track : BitVec 16
  head : Byte
  sector : Byte
  comp : Byte
  count : Int
  drives : Bool → Drive
  data : Buffer
  sector_buf : Buffer
  /-- What the DMA controller took. -/
  dma_out : List Byte
  touched : List Touch
  /-- The completion bytes of the commands that have ended. -/
  completions : List Byte

/-- An access by the buffer pointer that is outside of its array. -/
inductive Fault where
  | null
  | outside (ptr : Ptr) (i : Nat)
  deriving DecidableEq, Repr

/-- What the machine answers during one callback: each call for DMA, and the image. -/
structure Host where
  dma : Nat → Int
  /-- The sector that `hdd_image_read` finds, or none when it fails. -/
  read : Nat → Option (Vector Byte SECTOR_SIZE)
  /-- Whether `hdd_image_write` succeeds. -/
  write : Nat → Bool

def isSet (x : Byte) : Bool := x != 0

def dmaEnabled (dev : Hdc) : Bool := isSet (dev.intr &&& DMA_ENA)

/-! ## The device control block -/

def cmd (dev : Hdc) : Byte := dev.dcb.get 0

def dcbHead (dev : Hdc) : Byte := dev.dcb.get 1 &&& 0x1f

def drvsel (dev : Hdc) : Bool := isSet (dev.dcb.get 1 &&& 0x20)

def dcbSector (dev : Hdc) : Byte := dev.dcb.get 2 &&& 0x3f

/-- `dcb->cyl_low | (dcb->cyl_high << 8)` -/
def dcbCylinder (dev : Hdc) : BitVec 16 :=
  (dev.dcb.get 3).setWidth 16 ||| (dev.dcb.get 2 >>> 6).setWidth 16 <<< 8

def drive (dev : Hdc) : Drive := dev.drives (drvsel dev)

def setDrive (dev : Hdc) (drive : Drive) : Hdc :=
  { dev with drives := Function.update dev.drives (drvsel dev) drive }

/-! ## The buffer pointer -/

/-- A byte of an array, if there is one at that index. -/
def byteAt (dev : Hdc) (area : Area) (i : Nat) : Option Byte :=
  match area with
  | .dcb => dev.dcb[i]?
  | .data => dev.data[i]?
  | .sector_buf => dev.sector_buf[i]?

def putByte (dev : Hdc) (area : Area) (i : Nat) (val : Byte) : Hdc :=
  match area with
  | .dcb => { dev with dcb := dev.dcb.setIfInBounds i val }
  | .data => { dev with data := dev.data.setIfInBounds i val }
  | .sector_buf => { dev with sector_buf := dev.sector_buf.setIfInBounds i val }

/-- `dev->buf_ptr[i]` -/
def peek (dev : Hdc) (i : Nat) : Except Fault Byte :=
  match dev.buf_ptr with
  | none => .error .null
  | some ptr =>
    match byteAt dev ptr.area (ptr.off + i) with
    | some byte => .ok byte
    | none => .error (.outside ptr i)

/-- `dev->buf_ptr[i] = val` -/
def poke (dev : Hdc) (i : Nat) (val : Byte) : Except Fault Hdc :=
  match dev.buf_ptr with
  | none => .error .null
  | some ptr =>
    if ptr.off + i < ptr.area.size then .ok (putByte dev ptr.area (ptr.off + i) val)
    else .error (.outside ptr i)

/-- `memcpy` of the first bytes of a buffer. -/
def copied (n : Nat) (src dst : Buffer) : Buffer :=
  Vector.ofFn fun i => if i.val < n then src[i] else dst[i]

/-! ## Completion, addresses -/

def set_intr (dev : Hdc) : Hdc :=
  let status := STAT_REQ ||| STAT_CD ||| STAT_IO ||| STAT_BSY
  let irq := isSet (dev.intr &&& IRQ_ENA)
  { dev with
    status := if irq then status ||| STAT_IRQ else status
    state := STATE_COMPL
    irq := irq || dev.irq
    completions := dev.completions ++ [dev.comp] }

/-- The command ends with an error. -/
def failed (dev : Hdc) : Hdc := set_intr { dev with comp := dev.comp ||| COMP_ERR }

def fails (sense : Byte) (dev : Hdc) : Hdc := failed { dev with sense := sense }

/-- The address of the sector, or none after an error. -/
def get_sector (dev : Hdc) : Hdc × Option Nat :=
  if (drive dev).cur_cyl ≠ dev.track then ({ dev with sense := ERR_ILLADDR }, none)
  else if dev.head ≥ (drive dev).hpc then ({ dev with sense := ERR_ILLADDR }, none)
  else if dev.sector ≥ (drive dev).spt then ({ dev with sense := ERR_ILLADDR }, none)
  else
    (dev, some ((dev.track.toNat * (drive dev).hpc.toNat + dev.head.toNat) *
      (drive dev).spt.toNat + dev.sector.toNat))

def next_sector (dev : Hdc) : Hdc :=
  if dev.sector + 1 ≥ (drive dev).spt then
    if dev.head + 1 ≥ (drive dev).hpc then
      let cur_cyl := (drive dev).cur_cyl + 1
      setDrive { dev with sector := 0, head := 0, track := dev.track + 1 }
        { drive dev with
          cur_cyl := if cur_cyl ≥ (drive dev).tracks then (drive dev).tracks - 1 else cur_cyl }
    else { dev with sector := 0, head := dev.head + 1 }
  else { dev with sector := dev.sector + 1 }

def do_seek (dev : Hdc) (cyl : BitVec 16) : Hdc :=
  setDrive { dev with track := cyl }
    { drive dev with cur_cyl := if cyl ≥ (drive dev).tracks then (drive dev).tracks - 1 else cyl }

/-- The seek at the start of a command, and its head and sector. -/
def seekStart (dev : Hdc) : Hdc :=
  { do_seek dev (dcbCylinder dev) with head := dcbHead dev, sector := dcbSector dev }

def hdd_image_read (host : Host) (addr : Nat) (dev : Hdc) : Hdc × Bool :=
  let dev := { dev with touched := dev.touched ++ [.read (drive dev).hdd_num addr] }
  match host.read addr with
  | some sector =>
    ({ dev with
      sector_buf := Vector.ofFn fun i => if h : i.val < SECTOR_SIZE then sector[i.val] else
        dev.sector_buf[i] }, true)
  | none => (dev, false)

def hdd_image_write (host : Host) (addr : Nat) (dev : Hdc) : Hdc × Bool :=
  ({ dev with touched := dev.touched ++ [.write (drive dev).hdd_num addr dev.sector_buf] },
    host.write addr)

/-! ## Formatting -/

/-- The sectors of a track, from `s` on, until one is not found. -/
def formatSectors (host : Host) (h : Byte) : Nat → Byte → Hdc → Hdc
  | 0, _, dev => dev
  | n + 1, s, dev =>
    match get_sector { dev with head := h, sector := s } with
    | (dev, none) => dev
    | (dev, some addr) =>
      let (dev, done) := hdd_image_write host addr dev
      formatSectors host h n (s + 1) (if done then dev else { dev with sense := ERR_BADTRK })

/-- The heads of a cylinder, from `h` on. -/
def formatHeads (host : Host) : Nat → Byte → Hdc → Hdc
  | 0, _, dev => dev
  | n + 1, h, dev =>
    formatHeads host n (h + 1) (formatSectors host h (drive dev).spt.toNat 0 dev)

/-- The loop ends when `start_cyl` comes to `end_cyl`, by way of its overflow if need be. -/
def formatRounds (dev : Hdc) : Nat :=
  if cmd dev = CMD_FORMAT_DRIVE then ((drive dev).tracks.toNat + 2 ^ 32 - 1) % 2 ^ 32 + 1 else 1

/-- The track stays what it was at first, however often the loop goes round. -/
def do_format (host : Host) (dev : Hdc) : Hdc :=
  let whole := cmd dev = CMD_FORMAT_DRIVE
  let start_cyl := if whole then 0 else dcbCylinder dev
  let start_hd := if whole then 0 else dcbHead dev
  let heads := if whole then (drive dev).hpc.toNat else 1
  if dev.state = STATE_IDLE then
    (formatHeads host heads start_hd)^[formatRounds dev]
      { do_seek dev start_cyl with head := dcbHead dev, sector := 0 }
  else dev

/-! ## Transfers -/

/-- DMA has no data now. It is tried again. -/
def stalls (dev : Hdc) : Hdc :=
  { dev with status := dev.status ||| (STAT_CD ||| STAT_IO ||| STAT_REQ), timer := true }

/-- `buf_ptr++`, `buf_idx++` -/
def sent (byte : Byte) (dev : Hdc) : Hdc :=
  { dev with
    buf_ptr := dev.buf_ptr.map fun ptr => { ptr with off := ptr.off + 1 }
    buf_idx := dev.buf_idx + 1
    dma_out := dev.dma_out ++ [byte] }

/-- The loop of a transfer to the host by DMA, from its `k`-th call on, and whether it ends. -/
def sendDma (host : Host) : Nat → Nat → Hdc → Except Fault (Hdc × Bool)
  | 0, _, dev => .ok (dev, true)
  | n + 1, k, dev =>
    match peek dev 0 with
    | .error fault => .error fault
    | .ok byte =>
      if host.dma k = DMA_NODATA then .ok (stalls dev, false)
      else sendDma host n (k + 1) (sent byte dev)

/-- The loop of a transfer from the host by DMA. -/
def receiveDma (host : Host) : Nat → Nat → Hdc → Except Fault (Hdc × Bool)
  | 0, _, dev => .ok (dev, true)
  | n + 1, k, dev =>
    if host.dma k = DMA_NODATA then .ok (stalls dev, false)
    else
      match poke dev dev.buf_idx (BitVec.ofInt 8 (host.dma k)) with
      | .error fault => .error fault
      | .ok next => receiveDma host n (k + 1) { next with buf_idx := dev.buf_idx + 1 }

/-- STATE_SDATA: the rest of the buffer goes by DMA, if any. -/
def sdata (host : Host) (dma : Bool) (dev : Hdc) : Except Fault Hdc :=
  if dma then
    match sendDma host (dev.buf_len - dev.buf_idx) 0 dev with
    | .error fault => .error fault
    | .ok (dev, true) => .ok { dev with state := STATE_SDONE, timer := true }
    | .ok (dev, false) => .ok dev
  else .ok { dev with state := STATE_SDONE, timer := true }

/-- STATE_RDATA: the rest of the buffer comes by DMA. -/
def rdata (host : Host) (dev : Hdc) : Except Fault Hdc :=
  match receiveDma host (dev.buf_len - dev.buf_idx) 0 dev with
  | .error fault => .error fault
  | .ok (dev, true) => .ok { dev with state := STATE_RDONE, timer := true }
  | .ok (dev, false) => .ok dev

/-- The M15 Plus BIOS waits for DMA-ready status before IRQ5. -/
def dmaReady (dev : Hdc) : Hdc :=
  if dev.type = 8 then { dev with status := dev.status ||| STAT_DRQ } else dev

/-- The sector buffer is to be sent, by DMA or by the data port. -/
def offers (dev : Hdc) : Hdc :=
  if dmaEnabled dev then { dev with buf_ptr := some ⟨.sector_buf, 0⟩, timer := true }
  else
    { dev with
      data := copied dev.buf_len dev.sector_buf dev.data
      buf_ptr := some ⟨.data, 0⟩
      status := dev.status ||| (STAT_REQ ||| STAT_IO) }

/-- A buffer is to be received, by DMA or by the data port. -/
def awaits (dev : Hdc) : Hdc :=
  if dmaEnabled dev then { dev with buf_ptr := some ⟨.sector_buf, 0⟩, timer := true }
  else { dev with buf_ptr := some ⟨.data, 0⟩, status := dev.status ||| STAT_REQ }

/-- What came by the data port goes to the sector buffer. -/
def gather (dev : Hdc) : Hdc :=
  if dmaEnabled dev then dev
  else { dev with sector_buf := copied dev.buf_len dev.data dev.sector_buf }

/-! ## The commands -/

/-- STATE_IDLE of the commands of many sectors. A count of 0 means 256. -/
def startCount (dev : Hdc) : Hdc :=
  let count := ((dev.dcb.get 4).toNat : Int)
  { seekStart dev with count := if count = 0 then 256 else count, buf_len := SECTOR_SIZE }

/-- `do_send` -/
def doSend (host : Host) (no_data : Bool) (dev : Hdc) : Hdc :=
  match get_sector dev with
  | (dev, none) => failed dev
  | (dev, some addr) =>
    match hdd_image_read host addr dev with
    | (dev, false) => fails ERR_BADTRK dev
    | (dev, true) =>
      let dev := { dev with state := STATE_SDATA, buf_idx := 0 }
      if no_data then { dev with timer := true }
      else offers (if dmaEnabled dev then dmaReady dev else dev)

/-- `do_recv` -/
def doRecv (dev : Hdc) : Hdc :=
  let dev := { dev with state := STATE_RDATA, buf_idx := 0 }
  awaits (if dmaEnabled dev then dmaReady dev else dev)

def cmd_read_sectors (host : Host) (no_data : Bool) (dev : Hdc) : Except Fault Hdc :=
  if (drive dev).present = false then .ok (fails ERR_NOTRDY dev)
  else
    match dev.state with
    | STATE_IDLE => .ok (doSend host no_data (startCount dev))
    | STATE_SEND => .ok (doSend host no_data dev)
    | STATE_SDATA => sdata host (!no_data) dev
    | STATE_SDONE =>
      let dev := { dev with buf_idx := 0, count := dev.count - 1 }
      if dev.count = 0 then .ok (set_intr dev)
      else .ok (doSend host no_data (next_sector dev))
    | _ => .ok dev

/-- STATE_RDONE of CMD_WRITE_SECTORS. -/
def writeSector (host : Host) (dev : Hdc) : Hdc :=
  match get_sector (gather dev) with
  | (dev, none) => failed dev
  | (dev, some addr) =>
    match hdd_image_write host addr dev with
    | (dev, false) => fails ERR_BADTRK dev
    | (dev, true) =>
      let dev := { dev with buf_idx := 0, count := dev.count - 1 }
      if dev.count = 0 then set_intr dev else doRecv (next_sector dev)

def cmd_write_sectors (host : Host) (dev : Hdc) : Except Fault Hdc :=
  if (drive dev).present = false then .ok (fails ERR_NOTRDY dev)
  else
    match dev.state with
    | STATE_IDLE => .ok (doRecv (startCount dev))
    | STATE_RECV => .ok (doRecv dev)
    | STATE_RDATA => rdata host { dev with status := STAT_BSY }
    | STATE_RDONE => .ok (writeSector host dev)
    | _ => .ok dev

def cmd_read_sense (dev : Hdc) : Hdc :=
  match dev.state with
  | STATE_IDLE =>
    let cur_cyl := (drive dev).cur_cyl
    { dev with
      buf_idx := 0
      buf_len := 4
      buf_ptr := some ⟨.data, 0⟩
      data := ((((dev.data.set 0 dev.sense).set 1 (if drvsel dev then 0x20 else 0x00)).set 2
        ((cur_cyl >>> 2).setWidth 8 ||| dev.sector &&& 0x3f)).set 3 (cur_cyl.setWidth 8))
      sense := ERR_NOERROR
      status := dev.status ||| (STAT_REQ ||| STAT_IO)
      state := STATE_SDATA }
  | STATE_SDONE => set_intr dev
  | _ => dev

def cmd_seek (dev : Hdc) : Hdc :=
  let val := dcbCylinder dev
  if (drive dev).present then
    let dev := do_seek dev val
    if val ≠ (drive dev).cur_cyl then fails ERR_SEEK dev else set_intr dev
  else fails ERR_NOTRDY dev

/-- The parameters do not carry the sectors of a track. The PC 1 HD keeps the ones it has. -/
def cmd_set_drive_params (dev : Hdc) : Hdc :=
  match dev.state with
  | STATE_IDLE =>
    { dev with
      state := STATE_RDATA
      buf_idx := 0
      buf_len := 8
      buf_ptr := some ⟨.data, 0⟩
      status := dev.status ||| STAT_REQ }
  | STATE_RDONE =>
    let dev := setDrive dev { drive dev with
      tracks := dev.data[0].setWidth 16 <<< 8 ||| dev.data[1].setWidth 16
      hpc := dev.data[2]
      spt := if dev.type = 7 then (drive dev).cfg_spt else 17 }
    set_intr { dev with status := dev.status &&& ~~~STAT_REQ }
  | _ => dev

def cmd_read_sector_buffer (host : Host) (dev : Hdc) : Except Fault Hdc :=
  match dev.state with
  | STATE_IDLE =>
    .ok (offers { dev with buf_idx := 0, buf_len := SECTOR_SIZE, state := STATE_SDATA })
  | STATE_SDATA => sdata host (dmaEnabled dev) dev
  | STATE_SDONE => .ok (set_intr dev)
  | _ => .ok dev

def cmd_write_sector_buffer (host : Host) (dev : Hdc) : Except Fault Hdc :=
  match dev.state with
  | STATE_IDLE =>
    .ok (awaits { dev with buf_idx := 0, buf_len := SECTOR_SIZE, state := STATE_RDATA })
  | STATE_RDATA => if dmaEnabled dev then rdata host dev else .ok dev
  | STATE_RDONE => .ok (set_intr (gather dev))
  | _ => .ok dev

/-- Raw images do not keep the ECC field: it is zero. -/
def readLong (host : Host) (dev : Hdc) : Hdc :=
  match get_sector (seekStart dev) with
  | (dev, none) => failed dev
  | (dev, some addr) =>
    match hdd_image_read host addr dev with
    | (dev, false) => fails ERR_BADTRK dev
    | (dev, true) =>
      offers { dev with
        sector_buf := Vector.ofFn fun i => if i.val < SECTOR_SIZE then dev.sector_buf[i] else 0
        buf_idx := 0
        buf_len := LONG_SECTOR_SIZE
        state := STATE_SDATA }

def cmd_read_long (host : Host) (dev : Hdc) : Except Fault Hdc :=
  if (drive dev).present = false then .ok (fails ERR_NOTRDY dev)
  else
    match dev.state with
    | STATE_IDLE => .ok (readLong host dev)
    | STATE_SDATA => sdata host (dmaEnabled dev) dev
    | STATE_SDONE => .ok (set_intr dev)
    | _ => .ok dev

def writeLong (host : Host) (dev : Hdc) : Hdc :=
  match get_sector (gather dev) with
  | (dev, none) => failed dev
  | (dev, some addr) =>
    match hdd_image_write host addr dev with
    | (dev, false) => fails ERR_BADTRK dev
    | (dev, true) => set_intr dev

def cmd_write_long (host : Host) (dev : Hdc) : Except Fault Hdc :=
  if (drive dev).present = false then .ok (fails ERR_NOTRDY dev)
  else
    match dev.state with
    | STATE_IDLE =>
      .ok (awaits { seekStart dev with
        buf_idx := 0, buf_len := LONG_SECTOR_SIZE, state := STATE_RDATA })
    | STATE_RDATA => if dmaEnabled dev then rdata host dev else .ok dev
    | STATE_RDONE => .ok (writeLong host dev)
    | _ => .ok dev

/-- The diagnostics only take their time. -/
def cmd_diags (dev : Hdc) : Hdc :=
  match dev.state with
  | STATE_IDLE => { dev with state := STATE_RDONE, timer := true }
  | STATE_RDONE => set_intr dev
  | _ => dev

def cmd_drive_diags (dev : Hdc) : Hdc :=
  if dev.state = STATE_IDLE ∧ (drive dev).present = false then fails ERR_NOTRDY dev
  else cmd_diags dev

def cmd_recalibrate (dev : Hdc) : Hdc :=
  if (drive dev).present then
    set_intr (setDrive { dev with track := 0 } { drive dev with cur_cyl := 0 })
  else fails ERR_NOTRDY dev

def cmd_format (host : Host) (dev : Hdc) : Hdc :=
  if (drive dev).present then set_intr (do_format host dev) else fails ERR_NOTRDY dev

def runCommand (host : Host) (dev : Hdc) : Except Fault Hdc :=
  if cmd dev = CMD_TEST_READY then
    .ok (if (drive dev).present then set_intr dev else fails ERR_NOTRDY dev)
  else if cmd dev = CMD_RECALIBRATE then .ok (cmd_recalibrate dev)
  else if cmd dev = CMD_READ_SENSE then .ok (cmd_read_sense dev)
  else if cmd dev = CMD_READ_VERIFY then cmd_read_sectors host true dev
  else if cmd dev = CMD_READ_SECTORS then cmd_read_sectors host false dev
  else if cmd dev = CMD_WRITE_SECTORS then cmd_write_sectors host dev
  else if cmd dev = CMD_FORMAT_DRIVE ∨ cmd dev = CMD_FORMAT_TRACK then .ok (cmd_format host dev)
  else if cmd dev = CMD_SEEK then .ok (cmd_seek dev)
  else if cmd dev = CMD_SET_DRIVE_PARAMS then .ok (cmd_set_drive_params dev)
  else if cmd dev = CMD_READ_SECTOR_BUFFER then cmd_read_sector_buffer host dev
  else if cmd dev = CMD_WRITE_SECTOR_BUFFER then cmd_write_sector_buffer host dev
  else if cmd dev = CMD_READ_LONG then cmd_read_long host dev
  else if cmd dev = CMD_WRITE_LONG then cmd_write_long host dev
  else if cmd dev = CMD_RAM_DIAGS ∨ cmd dev = CMD_CTRL_DIAGS then .ok (cmd_diags dev)
  else if cmd dev = CMD_DRIVE_DIAGS then .ok (cmd_drive_diags dev)
  else .ok (fails ERR_ILLCMD dev)

def hdc_callback (host : Host) (dev : Hdc) : Except Fault Hdc :=
  runCommand host { dev with
    comp := if drvsel dev then COMP_DRIVE else 0x00
    status := dev.status ||| STAT_DCB }

/-! ## The registers -/

/-- The data port is used when it should not be. -/
def refuses (dev : Hdc) : Hdc := { dev with comp := dev.comp ||| COMP_ERR, sense := ERR_ILLCMD }

/-- A byte of the buffer has gone by the data port. -/
def taken (dev : Hdc) : Hdc :=
  let dev := { dev with buf_idx := dev.buf_idx + 1 }
  if dev.buf_idx = dev.buf_len then
    { dev with status := dev.status &&& ~~~STAT_REQ, state := STATE_SDONE, timer := true }
  else dev

/-- A byte of the buffer has come by the data port. -/
def filled (dev : Hdc) : Hdc :=
  let dev := { dev with buf_idx := dev.buf_idx + 1 }
  if dev.buf_idx = dev.buf_len then
    { dev with
      state := if isSet (dev.status &&& STAT_DCB) then STATE_RDONE else STATE_IDLE
      status := dev.status &&& ~~~STAT_REQ &&& ~~~STAT_CD
      timer := true }
  else dev

def hdc_read (port : BitVec 16) (dev : Hdc) : Except Fault (Byte × Hdc) :=
  if port &&& 3 = 0 then
    let dev := { dev with status := dev.status &&& ~~~STAT_IRQ }
    if dev.state = STATE_SDATA then
      if dev.buf_idx > dev.buf_len then .ok (0xff, refuses dev)
      else (peek dev dev.buf_idx).map fun byte => (byte, taken dev)
    else if dev.state = STATE_COMPL then
      .ok (dev.comp, { dev with status := 0x00, state := STATE_IDLE })
    else .ok (0xff, dev)
  else if port &&& 3 = 1 then .ok (dev.status &&& ~~~STAT_DCB, dev)
  else if port &&& 3 = 2 then .ok (dev.sw, dev)
  else .ok (0xff, dev)

/-- The M15 Plus gives the command up, and its interrupt. -/
def reset (dev : Hdc) : Hdc :=
  let dev := { dev with sense := 0x00, state := STATE_IDLE }
  if dev.type = 8 then
    { dev with
      timer := false
      irq := false
      status := 0
      intr := 0
      comp := 0
      buf_idx := 0
      buf_len := 0
      buf_ptr := none
      count := 0 }
  else dev

/-- The next bytes are a device control block. -/
def select (dev : Hdc) : Hdc :=
  { dev with
    buf_idx := 0
    buf_len := 6
    buf_ptr := some ⟨.dcb, 0⟩
    state := STATE_RDATA
    status := STAT_BSY ||| STAT_CD ||| STAT_REQ }

def hdc_write (port : BitVec 16) (val : Byte) (dev : Hdc) : Except Fault Hdc :=
  if port &&& 3 = 0 then
    if dev.state = STATE_RDATA then
      if isSet (dev.status &&& STAT_REQ) = false then .ok (refuses dev)
      else if dev.buf_idx ≥ dev.buf_len then .ok (refuses dev)
      else (poke dev dev.buf_idx val).map filled
    else .ok dev
  else if port &&& 3 = 1 then .ok (reset dev)
  else if port &&& 3 = 2 then .ok (select dev)
  -- for type 8 the register also opens its DMA channel
  else .ok { dev with intr := val }

/-! ## Runs -/

inductive Op where
  | callback (host : Host)
  | read (port : BitVec 16)
  | write (port : BitVec 16) (val : Byte)

/-- The callback comes only when the timer is on. It goes off first. -/
def step (dev : Hdc) : Op → Except Fault Hdc
  | .callback host => if dev.timer then hdc_callback host { dev with timer := false } else .ok dev
  | .read port => (hdc_read port dev).map Prod.snd
  | .write port val => hdc_write port val dev

/-- What `xta_init_common` leaves: `calloc`, the type, the switches and the drives. -/
def initial (type : Nat) (sw : Byte) (drives : Bool → Drive) : Hdc where
  type := type
  sw := sw
  state := STATE_IDLE
  sense := 0
  status := 0
  intr := 0
  timer := false
  irq := false
  buf_idx := 0
  buf_len := 0
  buf_ptr := none
  dcb := Vector.replicate 6 0
  track := 0
  head := 0
  sector := 0
  comp := 0
  count := 0
  drives := drives
  data := Vector.replicate 516 0
  sector_buf := Vector.replicate 516 0
  dma_out := []
  touched := []
  completions := []

end blumach.hdc_xta
