-- The ST-506 hard disk controllers of `hdc_st506_xt.c`: the registers, the commands that the
-- timer callback runs, and the accesses to its arrays, which fail outside of them.
import Mathlib.Data.Nat.Notation

namespace blumach.hdc_st506_xt

/-- For the literals of `Fin 6`. -/
scoped instance neZero_6 : @NeZero Nat Zero.ofOfNat0 6 := ⟨by decide⟩

abbrev Byte := BitVec 8

def SECTOR_SIZE : Nat := 512
def MFM_NUM : Nat := 2

/-! ## Constants -/

def ST506_XT_TYPE_DTC_5150X : Nat := 2
def ST506_XT_TYPE_ST11M : Nat := 11
def ST506_XT_TYPE_ST11R : Nat := 12
def ST506_XT_TYPE_VICTOR_V86P : Nat := 27
def ST506_XT_TYPE_TOSHIBA_T3200 : Nat := 29

def STAT_REQ : Byte := 0x01
def STAT_IO : Byte := 0x02
def STAT_CD : Byte := 0x04
def STAT_BSY : Byte := 0x08
def STAT_DRQ : Byte := 0x10
def STAT_IRQ : Byte := 0x20

def DMA_ENA : Byte := 0x01
def IRQ_ENA : Byte := 0x02
def DMA_NODATA : Int := -1

def ERR_NOT_READY : Byte := 0x04
def ERR_NOT_AVAILABLE : Byte := 0x09
def ERR_UNC_ERR : Byte := 0x11
def ERR_SEEK_ERROR : Byte := 0x15
def ERR_NO_RECOVERY : Byte := 0x1f
def ERR_BAD_COMMAND : Byte := 0x20
def ERR_ILLEGAL_ADDR : Byte := 0x21
def ERR_BAD_PARAMETER : Byte := 0x22

def CMD_TEST_DRIVE_READY : Byte := 0x00
def CMD_RECALIBRATE : Byte := 0x01
def CMD_STATUS : Byte := 0x03
def CMD_FORMAT_DRIVE : Byte := 0x04
def CMD_VERIFY : Byte := 0x05
def CMD_FORMAT_TRACK : Byte := 0x06
def CMD_FORMAT_BAD_TRACK : Byte := 0x07
def CMD_READ : Byte := 0x08
def CMD_WRITE : Byte := 0x0a
def CMD_SEEK : Byte := 0x0b
def CMD_SPECIFY : Byte := 0x0c
def CMD_READ_ECC_BURST_LEN : Byte := 0x0d
def CMD_READ_BUFFER : Byte := 0x0e
def CMD_WRITE_BUFFER : Byte := 0x0f
def CMD_INQUIRY_ST11 : Byte := 0x12
def CMD_V86P_POWEROFF : Byte := 0x1a
def CMD_RAM_DIAGNOSTIC : Byte := 0xe0
def CMD_CTRLR_DIAGNOSTIC : Byte := 0xe4
def CMD_READ_LONG : Byte := 0xe5
def CMD_WRITE_LONG : Byte := 0xe6
def CMD_FORMAT_ST11 : Byte := 0xf6
def CMD_GET_GEOMETRY_ST11 : Byte := 0xf8
def CMD_SET_GEOMETRY_ST11 : Byte := 0xfa
def CMD_GET_DRIVE_PARAMS_DTC : Byte := 0xfb
def CMD_SET_STEP_RATE_DTC : Byte := 0xfc
def CMD_SET_GEOMETRY_DTC : Byte := 0xfe
def CMD_GET_GEOMETRY_DTC : Byte := 0xff

inductive HdcState where
  | STATE_IDLE
  | STATE_RECEIVE_COMMAND
  | STATE_START_COMMAND
  | STATE_RECEIVE_DATA
  | STATE_RECEIVED_DATA
  | STATE_SEND_DATA
  | STATE_SENT_DATA
  | STATE_COMPLETION_BYTE
  | STATE_DONE
  deriving DecidableEq, Repr

open HdcState

/-! ## State -/

/-- `drive_t`: the physical and the configured geometry. -/
structure Drive where
  present : Bool
  hdd_num : Byte
  cylinder : BitVec 16
  spt : Byte
  hpc : Byte
  tracks : BitVec 16
  cfg_spt : Byte
  cfg_hpc : Byte
  cfg_cyl : BitVec 16

abbrev Buffer := Vector Byte (SECTOR_SIZE + 4)

/-- An access to the image of a disk. -/
inductive Touch where
  | read (hdd_num : Byte) (addr : Nat)
  | write (hdd_num : Byte) (addr : Nat) (buff : Buffer)
  | zero (hdd_num : Byte) (addr : Nat) (count : BitVec 32)

/-- `hdc_t`. The timer is not here: it may call back at any time. -/
structure Hdc where
  type : Nat
  spt : Byte
  switches : Byte
  misc : Byte
  nr_err : Byte
  err_bv : Byte
  state : HdcState
  irq_dma : Byte
  error : Byte
  status : Byte
  cyl_off : Nat
  command : Vector Byte 6
  drive_sel : Nat
  sector : Nat
  head : Nat
  cylinder : Nat
  count : Int
  compl : Byte
  buff_pos : Nat
  buff_cnt : Nat
  drives : Vector Drive MFM_NUM
  buff : Buffer
  /-- The lines to the interrupt and to the DMA controller. -/
  irq : Bool
  drq : Bool
  /-- What the DMA controller took. -/
  dma_out : List Byte
  touched : List Touch
  /-- The completion bytes of the commands that have ended. -/
  completions : List Byte

/-- An access outside of an array, and its index. -/
inductive Fault where
  | command (i : Nat)
  | buff (i : Nat)
  | drives (i : Nat)
  deriving DecidableEq

/-- What the machine answers during one callback: each call for DMA, and the image. -/
structure Host where
  dma : Nat → Int
  /-- The sector that `hdd_image_read` finds, or none when it fails. -/
  read : Option (Vector Byte SECTOR_SIZE)
  /-- Whether `hdd_image_write` succeeds. -/
  write : Bool

/-! ## Accesses -/

/-- `drive = &dev->drives[dev->drive_sel]`, where it is used. -/
def withDrive (dev : Hdc) (f : Drive → Except Fault Hdc) : Except Fault Hdc :=
  match dev.drives[dev.drive_sel]? with
  | some drive => f drive
  | none => .error (.drives dev.drive_sel)

def setDrive (dev : Hdc) (drive : Drive) : Hdc :=
  { dev with drives := dev.drives.setIfInBounds dev.drive_sel drive }

/-- `dev->buff[dev->buff_pos++]`. -/
def takeByte (dev : Hdc) : Except Fault (Byte × Hdc) :=
  match dev.buff[dev.buff_pos]? with
  | some byte => .ok (byte, { dev with buff_pos := dev.buff_pos + 1 })
  | none => .error (.buff dev.buff_pos)

/-- `dev->buff[dev->buff_pos++] = val`. -/
def putByte (val : Byte) (dev : Hdc) : Except Fault Hdc :=
  if h : dev.buff_pos < SECTOR_SIZE + 4 then
    .ok { dev with buff := dev.buff.set dev.buff_pos val h, buff_pos := dev.buff_pos + 1 }
  else .error (.buff dev.buff_pos)

/-- `dev->command[dev->buff_pos++] = val`. -/
def putCommand (val : Byte) (dev : Hdc) : Except Fault Hdc :=
  if h : dev.buff_pos < 6 then
    .ok { dev with command := dev.command.set dev.buff_pos val h, buff_pos := dev.buff_pos + 1 }
  else .error (.command dev.buff_pos)

/-- The first bytes of the buffer change. -/
def fillBuff (n : Nat) (bytes : Nat → Byte) (buff : Buffer) : Buffer :=
  Vector.ofFn fun i => if i.val < n then bytes i.val else buff[i]

def hdd_image_read (host : Host) (hdd_num : Byte) (addr : Nat) (dev : Hdc) : Hdc × Bool :=
  let dev := { dev with touched := dev.touched ++ [.read hdd_num addr] }
  match host.read with
  | some sector =>
    ({ dev with buff := fillBuff SECTOR_SIZE (fun i => sector[i]?.getD 0) dev.buff }, true)
  | none => (dev, false)

def hdd_image_write (host : Host) (hdd_num : Byte) (addr : Nat) (dev : Hdc) : Hdc × Bool :=
  ({ dev with touched := dev.touched ++ [.write hdd_num addr dev.buff] }, host.write)

def hdd_image_zero (hdd_num : Byte) (addr : Nat) (count : BitVec 32) (dev : Hdc) : Hdc :=
  { dev with touched := dev.touched ++ [.zero hdd_num addr count] }

/-! ## Completion, addresses -/

def dmaEnabled (dev : Hdc) : Bool := dev.irq_dma &&& DMA_ENA ≠ 0

def irqEnabled (dev : Hdc) : Bool := dev.irq_dma &&& IRQ_ENA ≠ 0

def st506_complete (dev : Hdc) : Hdc :=
  let status := STAT_REQ ||| STAT_CD ||| STAT_IO ||| STAT_BSY
  { dev with
    status := if irqEnabled dev then status ||| STAT_IRQ else status
    state := STATE_COMPLETION_BYTE
    drq := if dmaEnabled dev then false else dev.drq
    irq := irqEnabled dev || dev.irq
    completions := dev.completions ++ [dev.compl] }

def st506_error (err : Byte) (dev : Hdc) : Hdc :=
  { dev with compl := dev.compl ||| 0x02, error := err }

/-- A command that ends with an error. -/
def fails (err : Byte) (dev : Hdc) : Hdc := st506_complete (st506_error err dev)

def t3200_hdc_reset (dev : Hdc) : Hdc :=
  { dev with
    irq := false
    drq := if dmaEnabled dev then false else dev.drq
    state := STATE_IDLE
    status := 0
    irq_dma := 0
    error := 0
    compl := 0
    buff_pos := 0
    buff_cnt := 0
    count := 0
    command := Vector.replicate 6 0 }

/-- The address of the sector, or none after an error. It stays far below 2 to the 32. -/
def get_sector (drive : Drive) (dev : Hdc) : Hdc × Option Nat :=
  if drive.present = false then ({ dev with error := dev.nr_err }, none)
  else if dev.type = ST506_XT_TYPE_TOSHIBA_T3200 ∧
      (dev.cylinder ≥ drive.cfg_cyl.toNat ∨ dev.cylinder ≥ drive.tracks.toNat ∨
        dev.head ≥ drive.hpc.toNat ∨ dev.sector ≥ drive.spt.toNat) then
    ({ dev with error := ERR_ILLEGAL_ADDR }, none)
  else if dev.head ≥ drive.cfg_hpc.toNat then ({ dev with error := ERR_ILLEGAL_ADDR }, none)
  else if dev.sector ≥ drive.cfg_spt.toNat then ({ dev with error := ERR_ILLEGAL_ADDR }, none)
  else
    (dev, some ((dev.cylinder * drive.cfg_hpc.toNat + dev.head) * drive.cfg_spt.toNat + dev.sector))

def next_sector (dev : Hdc) (drive : Drive) : Hdc × Drive :=
  let dev := { dev with sector := dev.sector + 1 }
  if dev.sector ≥ drive.cfg_spt.toNat then
    let dev := { dev with sector := 0, head := dev.head + 1 }
    if dev.head ≥ drive.cfg_hpc.toNat then
      let dev := { dev with head := 0 }
      let drive := { drive with cylinder := drive.cylinder + 1 }
      if drive.cylinder ≥ drive.cfg_cyl then
        if dev.type = ST506_XT_TYPE_TOSHIBA_T3200 then
          ({ dev with cylinder := dev.cylinder + 1 }, drive)
        else (dev, { drive with cylinder := drive.cfg_cyl - 1 })
      else ({ dev with cylinder := dev.cylinder + 1 }, drive)
    else (dev, drive)
  else (dev, drive)

def isSt11 (dev : Hdc) : Bool :=
  dev.type = ST506_XT_TYPE_ST11M || dev.type = ST506_XT_TYPE_ST11R

/-- The head, the sector and the cylinder of a command. The ST-11 keeps a cylinder for itself. -/
def chsHead (dev : Hdc) : Nat := (dev.command.get 1 &&& 0x1f).toNat

def chsSector (dev : Hdc) : Nat := (dev.command.get 2 &&& 0x3f).toNat

def chsCylinder (dev : Hdc) : Nat :=
  if isSt11 dev ∧ dev.command.get 0 ≥ 0xf0 then 0
  else ((dev.command.get 3).toNat ||| ((dev.command.get 2 &&& 0xc0).toNat <<< 2)) + dev.cyl_off

/-- What `get_chs` and `get_chs_format` share: they differ in the sector. -/
def chs (sector : Nat) (dev : Hdc) (drive : Drive) : Hdc × Drive × Bool :=
  let dev :=
    { dev with
      err_bv := 0x80
      head := chsHead dev
      sector := sector
      count := (dev.command.get 4).toNat
      cylinder := chsCylinder dev }
  if dev.cylinder ≥ drive.cfg_cyl.toNat then
    (dev, { drive with cylinder := drive.cfg_cyl - 1 }, false)
  else (dev, { drive with cylinder := BitVec.ofNat 16 dev.cylinder }, true)

def get_chs (dev : Hdc) (drive : Drive) : Hdc × Drive × Bool :=
  chs (chsSector dev) dev drive

def get_chs_format (dev : Hdc) (drive : Drive) : Hdc × Drive × Bool := chs 1 dev drive

/-! ## Transfers -/

/-- The host is to read so many bytes of the buffer. -/
def sends (cnt : Nat) (dev : Hdc) : Hdc :=
  { dev with
    buff_pos := 0
    buff_cnt := cnt
    status := STAT_BSY ||| STAT_IO ||| STAT_REQ
    state := STATE_SEND_DATA }

/-- The host is to write so many bytes to the buffer. -/
def receives (cnt : Nat) (dev : Hdc) : Hdc :=
  { dev with
    buff_pos := 0
    buff_cnt := cnt
    status := STAT_BSY ||| STAT_REQ
    state := STATE_RECEIVE_DATA }

/-- A transfer that DMA may serve. -/
def requests (dev : Hdc) : Hdc := { dev with drq := dmaEnabled dev || dev.drq }

/-- The loop of a transfer to the host by DMA, from its `k`-th call on. -/
def sendDma (host : Host) : Nat → Nat → Hdc → Except Fault (Hdc × Bool)
  | 0, _, dev => .ok (dev, true)
  | n + 1, k, dev =>
    match takeByte dev with
    | .error fault => .error fault
    | .ok (byte, next) =>
      if host.dma k = DMA_NODATA then .ok (fails ERR_NO_RECOVERY dev, false)
      else sendDma host n (k + 1) { next with dma_out := next.dma_out ++ [byte] }

/-- The loop of a transfer from the host by DMA. -/
def receiveDma (host : Host) : Nat → Nat → Hdc → Except Fault (Hdc × Bool)
  | 0, _, dev => .ok (dev, true)
  | n + 1, k, dev =>
    if host.dma k = DMA_NODATA then .ok (fails ERR_NO_RECOVERY dev, false)
    else
      match putByte (BitVec.ofInt 8 (host.dma k)) dev with
      | .error fault => .error fault
      | .ok dev => receiveDma host n (k + 1) dev

/-- `STATE_SEND_DATA` of the commands that read. -/
def sendData (host : Host) (dev : Hdc) : Except Fault Hdc :=
  match sendDma host (dev.buff_cnt - dev.buff_pos) 0 dev with
  | .error fault => .error fault
  | .ok (dev, true) => .ok { dev with drq := false, state := STATE_SENT_DATA }
  | .ok (dev, false) => .ok dev

/-- `STATE_RECEIVE_DATA` of the commands that write. -/
def receiveData (host : Host) (dev : Hdc) : Except Fault Hdc :=
  match receiveDma host (dev.buff_cnt - dev.buff_pos) 0 dev with
  | .error fault => .error fault
  | .ok (dev, true) => .ok { dev with drq := false, state := STATE_RECEIVED_DATA }
  | .ok (dev, false) => .ok dev

end blumach.hdc_st506_xt
