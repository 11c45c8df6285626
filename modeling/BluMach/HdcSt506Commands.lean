-- The commands of the ST-506 controllers, one definition each, and the ports that the guest
-- sees.
import BluMach.HdcSt506

namespace blumach.hdc_st506_xt

open HdcState

/-! ## Commands -/

/-- What the commands that only answer with a few bytes share. -/
def replies (cnt : Nat) (buff : Buffer) (dev : Hdc) : Hdc := sends cnt { dev with buff := buff }

def test_drive_ready (dev : Hdc) : Except Fault Hdc :=
  withDrive dev fun drive =>
    .ok (if drive.present then st506_complete dev else fails dev.nr_err dev)

def recalibrate (dev : Hdc) : Except Fault Hdc :=
  match dev.state with
  | STATE_START_COMMAND =>
    withDrive dev fun drive =>
      if drive.present = false then .ok (fails dev.nr_err dev)
      else
        let dev := { dev with cylinder := dev.cyl_off, state := STATE_DONE }
        .ok (setDrive dev { drive with cylinder := BitVec.ofNat 16 dev.cylinder })
  | STATE_DONE => .ok (st506_complete dev)
  | _ => .ok dev

/-- The address of the last operation, after the error. -/
def statusBytes (dev : Hdc) : Nat → Byte
  | 0 => dev.err_bv ||| dev.error
  | 1 => (if dev.drive_sel ≠ 0 then 0x20 else 0) ||| BitVec.ofNat 8 dev.head
  | 2 => BitVec.ofNat 8 ((dev.cylinder &&& 0x0300) >>> 2 ||| dev.sector)
  | _ => BitVec.ofNat 8 (dev.cylinder &&& 0xff)

def status (dev : Hdc) : Except Fault Hdc :=
  match dev.state with
  | STATE_START_COMMAND =>
    .ok (replies 4 (fillBuff 4 (statusBytes dev) dev.buff) { dev with error := 0 })
  | STATE_SENT_DATA => .ok (st506_complete dev)
  | _ => .ok dev

/-- What the commands that format share: how the address is taken from the command, and how many
sectors are cleared. -/
def format (address : Hdc → Drive → Hdc × Drive × Bool) (count : Drive → BitVec 32) (dev : Hdc) :
    Except Fault Hdc :=
  match dev.state with
  | STATE_START_COMMAND =>
    withDrive dev fun drive =>
      let (dev, drive, _) := address dev drive
      .ok { setDrive dev drive with state := STATE_SEND_DATA }
  | STATE_SEND_DATA => -- wrong, but works
    withDrive dev fun drive =>
      match get_sector drive dev with
      | (dev, none) => .ok (fails dev.error dev)
      | (dev, some addr) =>
        .ok { hdd_image_zero drive.hdd_num addr (count drive) dev with state := STATE_SENT_DATA }
  | STATE_SENT_DATA => .ok (st506_complete dev)
  | _ => .ok dev

def format_drive (dev : Hdc) : Except Fault Hdc :=
  format get_chs
    (fun drive => BitVec.ofInt 32 ((drive.tracks.toNat - 1 : Int) * drive.hpc.toNat *
      drive.spt.toNat)) dev

def format_track (dev : Hdc) : Except Fault Hdc :=
  format get_chs_format (fun drive => BitVec.ofNat 32 drive.cfg_spt.toNat) dev

def format_st11 (dev : Hdc) : Except Fault Hdc :=
  if isSt11 dev then format_track dev else .ok (fails ERR_BAD_COMMAND dev)

/-- `dev->count--`. -/
def counted (dev : Hdc) : Hdc := { dev with count := dev.count - 1 }

/-- The last turn completes the command, and then still goes on. -/
def verifyTurn (dev : Hdc) : Hdc :=
  if dev.count = 0 then st506_complete (counted dev) else counted dev

def verify (dev : Hdc) : Except Fault Hdc :=
  match dev.state with
  | STATE_START_COMMAND =>
    withDrive dev fun drive =>
      let (dev, drive, _) := get_chs dev drive
      .ok { setDrive dev drive with state := STATE_SEND_DATA }
  | STATE_SEND_DATA =>
    let dev := verifyTurn dev
    withDrive dev fun drive =>
      match get_sector drive dev with
      | (dev, none) => .ok (fails dev.error dev)
      | (dev, some _) =>
        let (dev, drive) := next_sector dev drive
        .ok (setDrive dev drive)
  | _ => .ok dev

/-- The bytes of a sector, and of its ECC where the command asks for them. -/
def sectorBytes (long : Byte) (dev : Hdc) : Nat :=
  if dev.command.get 0 = long then SECTOR_SIZE + 4 else SECTOR_SIZE

/-- A sector is read and offered to the host. -/
def readSector (host : Host) (cnt : Nat) (drive : Drive) (dev : Hdc) : Hdc :=
  match get_sector drive dev with
  | (dev, none) => fails dev.error dev
  | (dev, some addr) =>
    match hdd_image_read host drive.hdd_num addr dev with
    | (dev, false) => fails ERR_UNC_ERR dev
    | (dev, true) => requests (sends cnt dev)

def read (host : Host) (dev : Hdc) : Except Fault Hdc :=
  match dev.state with
  | STATE_START_COMMAND =>
    withDrive dev fun drive =>
      let (dev, drive, _) := get_chs dev drive
      .ok (readSector host (sectorBytes CMD_READ_LONG dev) drive (setDrive dev drive))
  | STATE_SEND_DATA => sendData host dev
  | STATE_SENT_DATA =>
    let dev := counted dev
    if dev.count = 0 then .ok (st506_complete dev)
    else
      withDrive dev fun drive =>
        let (dev, drive) := next_sector dev drive
        .ok (readSector host SECTOR_SIZE drive (setDrive dev drive))
  | _ => .ok dev

def get_geometry_st11 (host : Host) (dev : Hdc) : Except Fault Hdc :=
  if isSt11 dev then read host dev else .ok (fails ERR_BAD_COMMAND dev)

def write (host : Host) (dev : Hdc) : Except Fault Hdc :=
  match dev.state with
  | STATE_START_COMMAND =>
    withDrive dev fun drive =>
      let (dev, drive, _) := get_chs dev drive
      let dev := setDrive dev drive
      match get_sector drive dev with
      | (dev, none) => .ok (fails ERR_BAD_PARAMETER dev)
      | (dev, some _) => .ok (requests (receives (sectorBytes CMD_WRITE_LONG dev) dev))
  | STATE_RECEIVE_DATA => receiveData host dev
  | STATE_RECEIVED_DATA =>
    withDrive dev fun drive =>
      match get_sector drive dev with
      | (dev, none) => .ok (fails dev.error dev)
      | (dev, some addr) =>
        match hdd_image_write host drive.hdd_num addr dev with
        | (dev, false) => .ok (fails ERR_UNC_ERR dev)
        | (dev, true) =>
          let dev := counted dev
          if dev.count = 0 then .ok (st506_complete dev)
          else
            let (dev, drive) := next_sector dev drive
            .ok (requests (receives SECTOR_SIZE (setDrive dev drive)))
  | _ => .ok dev

def set_geometry_st11 (host : Host) (dev : Hdc) : Except Fault Hdc :=
  if dev.type = ST506_XT_TYPE_DTC_5150X then .ok (st506_complete dev)
  else if isSt11 dev then write host dev
  else .ok (fails ERR_BAD_COMMAND dev)

def seek (dev : Hdc) : Except Fault Hdc :=
  match dev.state with
  | STATE_START_COMMAND =>
    withDrive dev fun drive =>
      if drive.present = false then .ok (fails dev.nr_err dev)
      else
        match get_chs dev drive with
        | (dev, drive, false) => .ok (fails ERR_SEEK_ERROR (setDrive dev drive))
        | (dev, drive, true) =>
          match get_sector drive (setDrive dev drive) with
          | (dev, none) => .ok (fails ERR_BAD_PARAMETER dev)
          | (dev, some _) => .ok { dev with state := STATE_DONE }
  | STATE_DONE => .ok (st506_complete dev)
  | _ => .ok dev

def specify (dev : Hdc) : Except Fault Hdc :=
  match dev.state with
  | STATE_START_COMMAND => .ok (receives 8 dev)
  | STATE_RECEIVED_DATA =>
    withDrive dev fun drive =>
      let cfg_hpc := dev.buff[2]
      let drive :=
        { drive with
          cfg_cyl := dev.buff[0] ++ dev.buff[1]
          cfg_hpc := if dev.type ≥ ST506_XT_TYPE_VICTOR_V86P ∧ cfg_hpc = 2 then 4 else cfg_hpc }
      .ok (st506_complete (setDrive dev drive))
  | _ => .ok dev

def read_ecc_burst_len (dev : Hdc) : Except Fault Hdc :=
  match dev.state with
  | STATE_START_COMMAND => .ok (replies 1 (fillBuff 1 (fun _ => 0) dev.buff) dev)
  | STATE_SENT_DATA => .ok (st506_complete dev)
  | _ => .ok dev

def read_buffer (host : Host) (dev : Hdc) : Except Fault Hdc :=
  match dev.state with
  | STATE_START_COMMAND => .ok (requests (sends SECTOR_SIZE dev))
  | STATE_SEND_DATA => sendData host dev
  | STATE_SENT_DATA => .ok (st506_complete dev)
  | _ => .ok dev

def write_buffer (host : Host) (dev : Hdc) : Except Fault Hdc :=
  match dev.state with
  | STATE_START_COMMAND => .ok (requests (receives SECTOR_SIZE dev))
  | STATE_RECEIVE_DATA => receiveData host dev
  | STATE_RECEIVED_DATA => .ok (st506_complete dev)
  | _ => .ok dev

/-- The kind of the card, and its revision. -/
def inquiryBytes (dev : Hdc) : Nat → Byte
  | 0 => if dev.spt = 17 then 0xc0 else 0x80
  | _ => dev.misc

def inquiry_st11 (dev : Hdc) : Except Fault Hdc :=
  if isSt11 dev then
    match dev.state with
    | STATE_START_COMMAND => .ok (replies 2 (fillBuff 2 (inquiryBytes dev) dev.buff) dev)
    | STATE_SENT_DATA => .ok (st506_complete dev)
    | _ => .ok dev
  else .ok (fails ERR_BAD_COMMAND dev)

def v86p_poweroff (dev : Hdc) : Except Fault Hdc :=
  .ok (if dev.type ≥ ST506_XT_TYPE_VICTOR_V86P then st506_complete dev
    else fails ERR_BAD_COMMAND dev)

/-- For the DTC it does nothing, for the ST-11 it writes the buffer to the disk. -/
def set_step_rate_dtc (host : Host) (dev : Hdc) : Except Fault Hdc :=
  if dev.type = ST506_XT_TYPE_DTC_5150X then .ok (st506_complete dev)
  else if isSt11 dev then
    withDrive dev fun drive =>
      let (dev, drive, _) := get_chs dev drive
      let dev := setDrive dev drive
      match get_sector drive dev with
      | (dev, none) => .ok (fails ERR_BAD_PARAMETER dev)
      | (dev, some addr) =>
        match hdd_image_write host drive.hdd_num addr dev with
        | (dev, false) => .ok (fails ERR_UNC_ERR dev)
        | (dev, true) =>
          let dev := counted dev
          if dev.count = 0 then .ok (st506_complete dev)
          else
            let (dev, drive) := next_sector dev drive
            .ok (setDrive dev drive)
  else .ok (fails ERR_BAD_COMMAND dev)

/-- The physical geometry, as the DTC packs it. -/
def paramBytes (dev : Hdc) (drive : Drive) : Nat → Byte
  | 0 => drive.tracks.setWidth 8
  | 1 => (drive.tracks >>> 2).setWidth 8 &&& 0xc0 ||| dev.spt
  | 2 => drive.hpc - 1
  | _ => 0

def get_drive_params_dtc (dev : Hdc) : Except Fault Hdc :=
  match dev.state with
  | STATE_START_COMMAND =>
    withDrive dev fun drive => .ok (replies 4 (fillBuff 4 (paramBytes dev drive) dev.buff) dev)
  | STATE_SENT_DATA => .ok (st506_complete dev)
  | _ => .ok dev

/-- The bytes are received and ignored. -/
def set_geometry_dtc (dev : Hdc) : Except Fault Hdc :=
  match dev.state with
  | STATE_START_COMMAND => .ok (receives 16 dev)
  | STATE_RECEIVED_DATA => .ok (st506_complete dev)
  | _ => .ok dev

def geometryBytes (drive : Drive) : Nat → Byte
  | 4 => drive.tracks.setWidth 8
  | 5 => (drive.tracks >>> 8).setWidth 8
  | 10 => drive.hpc
  | _ => 0

def get_geometry_dtc (dev : Hdc) : Except Fault Hdc :=
  match dev.state with
  | STATE_START_COMMAND =>
    withDrive dev fun drive => .ok (replies 16 (fillBuff 16 (geometryBytes drive) dev.buff) dev)
  | STATE_SENT_DATA => .ok (st506_complete dev)
  | _ => .ok dev

/-! ## The callback -/

/-- The cases of the `switch` in `st506_callback`. -/
inductive Command where
  | test_drive_ready
  | recalibrate
  | status
  | format_drive
  | verify
  | format_st11
  | format_track
  | get_geometry_st11
  | read
  | set_geometry_st11
  | write
  | seek
  | specify
  | read_ecc_burst_len
  | read_buffer
  | write_buffer
  | inquiry_st11
  | v86p_poweroff
  | diagnostic
  | set_step_rate_dtc
  | get_drive_params_dtc
  | set_geometry_dtc
  | get_geometry_dtc
  | unknown
  deriving DecidableEq

def decode (byte : Byte) : Command :=
  if byte = CMD_TEST_DRIVE_READY then .test_drive_ready
  else if byte = CMD_RECALIBRATE then .recalibrate
  else if byte = CMD_STATUS then .status
  else if byte = CMD_FORMAT_DRIVE then .format_drive
  else if byte = CMD_VERIFY then .verify
  else if byte = CMD_FORMAT_ST11 then .format_st11
  else if byte = CMD_FORMAT_TRACK ∨ byte = CMD_FORMAT_BAD_TRACK then .format_track
  else if byte = CMD_GET_GEOMETRY_ST11 then .get_geometry_st11
  else if byte = CMD_READ then .read
  else if byte = CMD_SET_GEOMETRY_ST11 then .set_geometry_st11
  else if byte = CMD_WRITE then .write
  else if byte = CMD_SEEK then .seek
  else if byte = CMD_SPECIFY then .specify
  else if byte = CMD_READ_ECC_BURST_LEN then .read_ecc_burst_len
  else if byte = CMD_READ_BUFFER then .read_buffer
  else if byte = CMD_WRITE_BUFFER then .write_buffer
  else if byte = CMD_INQUIRY_ST11 then .inquiry_st11
  else if byte = CMD_V86P_POWEROFF then .v86p_poweroff
  else if byte = CMD_RAM_DIAGNOSTIC ∨ byte = CMD_CTRLR_DIAGNOSTIC then .diagnostic
  else if byte = CMD_SET_STEP_RATE_DTC then .set_step_rate_dtc
  else if byte = CMD_GET_DRIVE_PARAMS_DTC then .get_drive_params_dtc
  else if byte = CMD_SET_GEOMETRY_DTC then .set_geometry_dtc
  else if byte = CMD_GET_GEOMETRY_DTC then .get_geometry_dtc
  else .unknown

def execute (host : Host) (dev : Hdc) : Command → Except Fault Hdc
  | .test_drive_ready => test_drive_ready dev
  | .recalibrate => recalibrate dev
  | .status => status dev
  | .format_drive => format_drive dev
  | .verify => verify dev
  | .format_st11 => format_st11 dev
  | .format_track => format_track dev
  | .get_geometry_st11 => get_geometry_st11 host dev
  | .read => read host dev
  | .set_geometry_st11 => set_geometry_st11 host dev
  | .write => write host dev
  | .seek => seek dev
  | .specify => specify dev
  | .read_ecc_burst_len => read_ecc_burst_len dev
  | .read_buffer => read_buffer host dev
  | .write_buffer => write_buffer host dev
  | .inquiry_st11 => inquiry_st11 dev
  | .v86p_poweroff => v86p_poweroff dev
  | .diagnostic => .ok (st506_complete dev)
  | .set_step_rate_dtc => set_step_rate_dtc host dev
  | .get_drive_params_dtc => get_drive_params_dtc dev
  | .set_geometry_dtc => set_geometry_dtc dev
  | .get_geometry_dtc => get_geometry_dtc dev
  | .unknown => .ok (fails ERR_BAD_COMMAND dev)

/-- `(dev->command[1] >> 5) & 0x07`. -/
def driveSel (dev : Hdc) : Nat := (dev.command.get 1 >>> 5 &&& 0x07).toNat

/-- The drive of the command, and the completion byte, before the command runs. -/
def preset (dev : Hdc) : Hdc :=
  { dev with
    drive_sel := driveSel dev
    compl := BitVec.ofNat 8 (driveSel dev) <<< 5
    err_bv := if dev.command.get 0 ≠ 3 then 0x00 else dev.err_bv }

def st506_callback (host : Host) (dev : Hdc) : Except Fault Hdc :=
  execute host (preset dev) (decode (dev.command.get 0))

/-! ## Ports -/

/-- The transfer is over: the timer is to call back. -/
def endOfTransfer (dev : Hdc) (state : HdcState) : Hdc :=
  if dev.buff_pos = dev.buff_cnt then
    { dev with buff_pos := 0, buff_cnt := 0, status := STAT_BSY, state := state }
  else dev

/-- A read of the data port takes the interrupt back. -/
def acknowledged (dev : Hdc) : Hdc :=
  { dev with
    irq := if dev.type = ST506_XT_TYPE_TOSHIBA_T3200 then false else dev.irq
    status := dev.status &&& ~~~STAT_IRQ }

def st506_read (port : BitVec 16) (dev : Hdc) : Except Fault (Byte × Hdc) :=
  match (port &&& 3).toNat with
  | 0 =>
    let dev := acknowledged dev
    match dev.state with
    | STATE_COMPLETION_BYTE => .ok (dev.compl, { dev with status := 0x00, state := STATE_IDLE })
    | STATE_SEND_DATA =>
      match takeByte dev with
      | .error fault => .error fault
      | .ok (ret, dev) => .ok (ret, endOfTransfer dev STATE_SENT_DATA)
    | _ => .ok (0xff, dev)
  | 1 => .ok (if dmaEnabled dev ∧ dev.drq then dev.status ||| STAT_DRQ else dev.status, dev)
  | 2 => .ok (dev.switches, dev)
  | _ => .ok (0xff, dev)

def st506_write (port : BitVec 16) (val : Byte) (dev : Hdc) : Except Fault Hdc :=
  match (port &&& 3).toNat with
  | 0 =>
    match dev.state with
    | STATE_RECEIVE_COMMAND =>
      match putCommand val dev with
      | .error fault => .error fault
      | .ok dev => .ok (endOfTransfer dev STATE_START_COMMAND)
    | STATE_RECEIVE_DATA =>
      match putByte val dev with
      | .error fault => .error fault
      | .ok dev => .ok (endOfTransfer dev STATE_RECEIVED_DATA)
    | _ => .ok dev
  | 1 =>
    .ok (if dev.type = ST506_XT_TYPE_TOSHIBA_T3200 then t3200_hdc_reset dev
      else { dev with status := 0x00 })
  | 2 =>
    .ok { dev with
      status := STAT_BSY ||| STAT_CD ||| STAT_REQ
      buff_pos := 0
      buff_cnt := 6
      state := STATE_RECEIVE_COMMAND }
  | _ =>
    let dev := { dev with irq_dma := val }
    let dev := if dmaEnabled dev then dev else { dev with drq := false }
    .ok (if irqEnabled dev then dev
      else { dev with status := dev.status &&& ~~~STAT_IRQ, irq := false })

/-- What can happen next: an access of the guest, or the timer calls back. -/
inductive Op where
  | read (port : BitVec 16)
  | write (port : BitVec 16) (val : Byte)
  | callback (host : Host)

def step (dev : Hdc) : Op → Except Fault Hdc
  | .read port => (st506_read port dev).map Prod.snd
  | .write port val => st506_write port val dev
  | .callback host => st506_callback host dev

def run (dev : Hdc) (ops : List Op) : Except Fault Hdc := ops.foldlM step dev

/-- The settings of a card that `st506_init` does not take from its type. -/
structure Options where
  switches : Byte
  revision : Byte

/-- `st506_init`, with the drives as `loadhd` leaves them. At first the configured geometry is the
physical one. -/
def st506_init (type : Nat) (options : Options) (drives : Vector Drive MFM_NUM) : Hdc where
  type := type
  spt := if type = ST506_XT_TYPE_ST11R ∨ 23 ≤ type ∧ type ≤ 26 ∧ type ≠ 24 then 26 else 17
  switches := options.switches
  misc := if type = ST506_XT_TYPE_ST11M ∨ type = ST506_XT_TYPE_ST11R then options.revision else 0
  nr_err :=
    if type = ST506_XT_TYPE_ST11M ∨ type = ST506_XT_TYPE_ST11R ∨ 21 ≤ type ∧ type ≤ 26 then
      ERR_NOT_AVAILABLE
    else ERR_NOT_READY
  err_bv := 0
  state := STATE_IDLE
  irq_dma := 0
  error := 0
  status := 0
  cyl_off := if type = ST506_XT_TYPE_ST11M ∨ type = ST506_XT_TYPE_ST11R then 1 else 0
  command := Vector.replicate 6 0
  drive_sel := 0
  sector := 0
  head := 0
  cylinder := 0
  count := 0
  compl := 0
  buff_pos := 0
  buff_cnt := 0
  drives := drives.map fun drive =>
    { drive with cfg_cyl := drive.tracks, cfg_hpc := drive.hpc, cfg_spt := drive.spt }
  buff := Vector.replicate (SECTOR_SIZE + 4) 0
  irq := false
  drq := false
  dma_out := []
  touched := []
  completions := []

end blumach.hdc_st506_xt
