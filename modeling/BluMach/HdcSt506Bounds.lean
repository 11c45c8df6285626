-- The indices of the ST-506 controller: which ports and which commands take it outside of its
-- arrays, and that nothing else does.
import BluMach.Guarded
import BluMach.HdcSt506Commands
import Mathlib.Tactic.SplitIfs

namespace blumach.hdc_st506_xt

open HdcState guarded

/-! ## The position in a transfer -/

/-- The state of the controller, the position in the buffer and the end of the transfer. -/
def transfer (dev : Hdc) : HdcState × Nat × Nat := (dev.state, dev.buff_pos, dev.buff_cnt)

/-- While bytes come and go the end is ahead, but for the commands that wait in
`STATE_SEND_DATA` without any bytes to send. -/
def Ahead : HdcState × Nat × Nat → Prop
  | (STATE_RECEIVE_COMMAND, pos, cnt) => pos < cnt ∧ cnt = 6
  | (STATE_START_COMMAND, _, cnt) => cnt = 0
  | (STATE_RECEIVE_DATA, pos, cnt) => pos < cnt ∧ cnt ≤ SECTOR_SIZE + 4
  | (STATE_SEND_DATA, pos, cnt) => cnt = 0 ∨ pos < cnt ∧ cnt ≤ SECTOR_SIZE + 4
  | _ => True

def InBounds (dev : Hdc) : Prop := Ahead (transfer dev)

theorem inBounds_congr {dev dev' : Hdc} (h : transfer dev' = transfer dev) (hb : InBounds dev) :
    InBounds dev' := by
  unfold InBounds
  rw [h]
  exact hb

theorem inBounds_complete (dev : Hdc) : InBounds (st506_complete dev) := trivial

theorem inBounds_fails (err : Byte) (dev : Hdc) : InBounds (fails err dev) := trivial

theorem inBounds_sends {cnt : Nat} (h0 : 0 < cnt) (h : cnt ≤ SECTOR_SIZE + 4) (dev : Hdc) :
    InBounds (sends cnt dev) := .inr ⟨h0, h⟩

theorem inBounds_receives {cnt : Nat} (h0 : 0 < cnt) (h : cnt ≤ SECTOR_SIZE + 4) (dev : Hdc) :
    InBounds (receives cnt dev) := ⟨h0, h⟩

theorem inBounds_requests {dev : Hdc} (h : InBounds dev) : InBounds (requests dev) := h

theorem transfer_get_sector (drive : Drive) (dev : Hdc) :
    transfer (get_sector drive dev).1 = transfer dev := by
  unfold get_sector
  split_ifs <;> rfl

theorem transfer_next_sector (dev : Hdc) (drive : Drive) :
    transfer (next_sector dev drive).1 = transfer dev := by
  unfold next_sector
  simp only
  split_ifs <;> rfl

theorem transfer_chs (sector : Nat) (dev : Hdc) (drive : Drive) :
    transfer (chs sector dev drive).1 = transfer dev := by
  unfold chs
  simp only
  split_ifs <;> rfl

/-! ## Accesses -/

/-- Only the number of the drive decides whether it is there. -/
theorem guarded_withDrive {dev : Hdc} {f : Drive → Except Fault Hdc} {p : Hdc → Prop}
    (h : ∀ drive, Guarded (f drive) True p) :
    Guarded (withDrive dev f) (dev.drive_sel < MFM_NUM) p := by
  unfold withDrive
  by_cases hlt : dev.drive_sel < MFM_NUM
  · rw [Vector.getElem?_eq_getElem hlt]
    exact (h _).congr (iff_of_true trivial hlt)
  · rw [Vector.getElem?_eq_none (by omega)]
    exact hlt

theorem takeByte_ok {dev : Hdc} (h : dev.buff_pos < SECTOR_SIZE + 4) :
    ∃ byte, takeByte dev = .ok (byte, { dev with buff_pos := dev.buff_pos + 1 }) := by
  unfold takeByte
  rw [Vector.getElem?_eq_getElem h]
  exact ⟨_, rfl⟩

theorem takeByte_fault {dev : Hdc} (h : ¬dev.buff_pos < SECTOR_SIZE + 4) :
    takeByte dev = .error (.buff dev.buff_pos) := by
  unfold takeByte
  rw [Vector.getElem?_eq_none (by omega)]

/-- A whole transfer by DMA stays in the buffer, and leaves `STATE_SEND_DATA`. -/
theorem sendDma_ok (host : Host) {n : Nat} (k : Nat) {dev : Hdc}
    (h : dev.buff_pos + n ≤ SECTOR_SIZE + 4) :
    ∃ r b, sendDma host n k dev = .ok (r, b) ∧ (b = false → InBounds r) := by
  induction n generalizing k dev with
  | zero => exact ⟨dev, true, rfl, nofun⟩
  | succ n ih =>
    obtain ⟨byte, hbyte⟩ := @takeByte_ok dev (by omega)
    unfold sendDma
    rw [hbyte]
    simp only
    split_ifs with hdma
    · exact ⟨_, false, rfl, fun _ => inBounds_fails _ _⟩
    · exact ih (k + 1) (by simp only; omega)

theorem receiveDma_ok (host : Host) {n : Nat} (k : Nat) {dev : Hdc}
    (h : dev.buff_pos + n ≤ SECTOR_SIZE + 4) :
    ∃ r b, receiveDma host n k dev = .ok (r, b) ∧ (b = false → InBounds r) := by
  induction n generalizing k dev with
  | zero => exact ⟨dev, true, rfl, nofun⟩
  | succ n ih =>
    unfold receiveDma
    split_ifs with hdma
    · exact ⟨_, false, rfl, fun _ => inBounds_fails _ _⟩
    · have hlt : dev.buff_pos < SECTOR_SIZE + 4 := by omega
      unfold putByte
      rw [dif_pos hlt]
      exact ih (k + 1) (by simp only; omega)

theorem guarded_sendData (host : Host) {dev : Hdc} (hs : dev.state = STATE_SEND_DATA)
    (h : InBounds dev) : Guarded (sendData host dev) True InBounds := by
  have hend : dev.buff_cnt = 0 ∨ dev.buff_pos < dev.buff_cnt ∧ dev.buff_cnt ≤ SECTOR_SIZE + 4 := by
    unfold InBounds transfer at h
    rw [hs] at h
    exact h
  unfold sendData
  rcases hend with h0 | ⟨hlt, hle⟩
  · rw [h0, Nat.zero_sub]
    exact .ok trivial
  · obtain ⟨r, b, hr, hb⟩ := @sendDma_ok host (dev.buff_cnt - dev.buff_pos) 0 dev
      (by omega)
    rw [hr]
    cases b with
    | false => exact .ok (hb rfl)
    | true => exact .ok trivial

theorem guarded_receiveData (host : Host) {dev : Hdc} (hs : dev.state = STATE_RECEIVE_DATA)
    (h : InBounds dev) : Guarded (receiveData host dev) True InBounds := by
  have hend : dev.buff_pos < dev.buff_cnt ∧ dev.buff_cnt ≤ SECTOR_SIZE + 4 := by
    unfold InBounds transfer at h
    rw [hs] at h
    exact h
  obtain ⟨r, b, hr, hb⟩ := @receiveDma_ok host (dev.buff_cnt - dev.buff_pos) 0 dev
    (by omega)
  unfold receiveData
  rw [hr]
  cases b with
  | false => exact .ok (hb rfl)
  | true => exact .ok trivial

/-! ## Commands -/

/-- Whether the next callback of a command uses its drive. -/
def usesDrive (dev : Hdc) : Command → Prop
  | .test_drive_ready => True
  | .recalibrate | .seek | .get_drive_params_dtc | .get_geometry_dtc =>
    dev.state = STATE_START_COMMAND
  | .format_drive | .verify | .format_track =>
    dev.state = STATE_START_COMMAND ∨ dev.state = STATE_SEND_DATA
  | .format_st11 =>
    isSt11 dev ∧ (dev.state = STATE_START_COMMAND ∨ dev.state = STATE_SEND_DATA)
  | .read => dev.state = STATE_START_COMMAND ∨ dev.state = STATE_SENT_DATA ∧ dev.count ≠ 1
  | .get_geometry_st11 =>
    isSt11 dev ∧
      (dev.state = STATE_START_COMMAND ∨ dev.state = STATE_SENT_DATA ∧ dev.count ≠ 1)
  | .write => dev.state = STATE_START_COMMAND ∨ dev.state = STATE_RECEIVED_DATA
  | .set_geometry_st11 =>
    isSt11 dev ∧ (dev.state = STATE_START_COMMAND ∨ dev.state = STATE_RECEIVED_DATA)
  | .specify => dev.state = STATE_RECEIVED_DATA
  | .set_step_rate_dtc => isSt11 dev
  | _ => False

/-- A command fails just when it uses a drive that is not there. -/
def Bounded (dev : Hdc) (m : Except Fault Hdc) (uses : Prop) : Prop :=
  Guarded m (uses → dev.drive_sel < MFM_NUM) InBounds

section

variable {dev : Hdc} (h : InBounds dev)

theorem bounded_test_drive_ready : Bounded dev (test_drive_ready dev) True := by
  refine (guarded_withDrive fun drive => ?_).needs trivial
  cases drive.present <;> exact .ok trivial

/-- A command of the ST-11 alone. -/
theorem bounded_on_st11 {m : Except Fault Hdc} {uses : Prop} (hm : Bounded dev m uses) :
    Bounded dev (if isSt11 dev then m else .ok (fails ERR_BAD_COMMAND dev))
      (isSt11 dev ∧ uses) := by
  split_ifs with hst11
  · exact hm.congr ⟨fun hg hu => hg hu.2, fun hg hu => hg ⟨hst11, hu⟩⟩
  · exact Guarded.free (fun hno => hst11 hno.1) (.ok (inBounds_fails _ dev))

theorem not_st11_of_dtc (hdtc : dev.type = ST506_XT_TYPE_DTC_5150X) : ¬isSt11 dev = true := by
  unfold isSt11
  rw [hdtc]
  decide

include h in
theorem bounded_recalibrate : Bounded dev (recalibrate dev) (dev.state = STATE_START_COMMAND) := by
  unfold recalibrate
  split
  case h_1 hs =>
    refine (guarded_withDrive fun drive => ?_).needs hs
    split_ifs
    · exact .ok (inBounds_fails _ _)
    · exact .ok trivial
  case h_2 hs => exact Guarded.free (by rw [hs]; nofun) (.ok (inBounds_complete dev))
  case h_3 hs _ => exact Guarded.free hs (.ok h)

include h in
theorem bounded_status : Bounded dev (status dev) False := by
  refine Guarded.free (fun hf => hf) ?_
  unfold status
  split
  · exact .ok (inBounds_sends (by decide) (by decide) _)
  · exact .ok (inBounds_complete dev)
  · exact .ok h

include h in
theorem bounded_format (address : Hdc → Drive → Hdc × Drive × Bool) (count : Drive → BitVec 32)
    (haddress : ∀ drive, transfer (address dev drive).1 = transfer dev) :
    Bounded dev (format address count dev)
      (dev.state = STATE_START_COMMAND ∨ dev.state = STATE_SEND_DATA) := by
  unfold format
  split
  case h_1 hs =>
    refine (guarded_withDrive fun drive => .ok ?_).needs (.inl hs)
    -- the end is the one of the command that has been received
    have hcnt : dev.buff_cnt = 0 := by
      unfold InBounds transfer at h
      rw [hs] at h
      exact h
    have hsame := congrArg (fun t => t.2.2) (haddress drive)
    exact .inl (hsame.trans hcnt)
  case h_2 hs =>
    refine (guarded_withDrive fun drive => ?_).needs (.inr hs)
    split
    · exact .ok (inBounds_fails _ _)
    · exact .ok trivial
  case h_3 hs => exact Guarded.free (by rw [hs]; nofun) (.ok (inBounds_complete dev))
  case h_4 h1 h2 _ => exact Guarded.free (fun hs => hs.elim h1 h2) (.ok h)

include h in
theorem bounded_verify :
    Bounded dev (verify dev) (dev.state = STATE_START_COMMAND ∨ dev.state = STATE_SEND_DATA) := by
  unfold verify
  split
  case h_1 hs =>
    refine (guarded_withDrive fun drive => .ok ?_).needs (.inl hs)
    have hcnt : dev.buff_cnt = 0 := by
      unfold InBounds transfer at h
      rw [hs] at h
      exact h
    have hsame := congrArg (fun t => t.2.2) (transfer_chs (chsSector dev) dev drive)
    exact .inl (hsame.trans hcnt)
  case h_2 hs =>
    refine Guarded.needs (.inr hs) ?_
    have hturn : InBounds (verifyTurn dev) := by
      unfold verifyTurn
      split_ifs
      · exact inBounds_complete _
      · exact h
    have hsel : (verifyTurn dev).drive_sel = dev.drive_sel := by
      unfold verifyTurn
      split_ifs <;> rfl
    rw [← hsel]
    refine guarded_withDrive fun drive => ?_
    split
    · exact .ok (inBounds_fails _ _)
    · rename_i next addr hget
      have hnext := congrArg (fun r => transfer r.1) hget
      rw [transfer_get_sector] at hnext
      refine .ok (inBounds_congr ?_ (inBounds_congr hnext.symm hturn))
      exact transfer_next_sector next drive
  case h_3 h1 h2 => exact Guarded.free (fun hs => hs.elim h1 h2) (.ok h)

theorem sectorBytes_pos (long : Byte) (dev : Hdc) : 0 < sectorBytes long dev := by
  unfold sectorBytes
  split_ifs <;> decide

theorem sectorBytes_le (long : Byte) (dev : Hdc) : sectorBytes long dev ≤ SECTOR_SIZE + 4 := by
  unfold sectorBytes
  split_ifs <;> decide

theorem inBounds_readSector (host : Host) {cnt : Nat} (h0 : 0 < cnt) (hle : cnt ≤ SECTOR_SIZE + 4)
    (drive : Drive) (dev : Hdc) : InBounds (readSector host cnt drive dev) := by
  unfold readSector
  split
  · exact inBounds_fails _ _
  · split
    · exact inBounds_fails _ _
    · exact inBounds_requests (inBounds_sends h0 hle _)

include h in
theorem bounded_read (host : Host) :
    Bounded dev (read host dev)
      (dev.state = STATE_START_COMMAND ∨ dev.state = STATE_SENT_DATA ∧ dev.count ≠ 1) := by
  unfold read
  split
  case h_1 hs =>
    refine (guarded_withDrive fun drive => .ok ?_).needs (.inl hs)
    exact inBounds_readSector host (sectorBytes_pos _ _) (sectorBytes_le _ _) _ _
  case h_2 hs =>
    refine Guarded.free ?_ (guarded_sendData host hs h)
    rw [hs]
    nofun
  case h_3 hs =>
    simp only
    by_cases hlast : (counted dev).count = 0
    · rw [if_pos hlast]
      refine Guarded.free ?_ (.ok (inBounds_complete _))
      rintro (hno | ⟨-, hno⟩)
      · rw [hs] at hno
        cases hno
      · exact hno (Int.sub_eq_zero.mp hlast)
    · rw [if_neg hlast]
      have hmore : dev.count ≠ 1 := fun h1 => hlast (Int.sub_eq_zero.mpr h1)
      refine Guarded.needs (.inr ⟨hs, hmore⟩) ?_
      exact @guarded_withDrive (counted dev) _ _ fun drive =>
        .ok (inBounds_readSector host (by decide) (by decide) _ _)
  case h_4 h1 _ h3 => exact Guarded.free (fun hs => hs.elim h1 fun hs => h3 hs.1) (.ok h)

include h in
theorem bounded_write (host : Host) :
    Bounded dev (write host dev)
      (dev.state = STATE_START_COMMAND ∨ dev.state = STATE_RECEIVED_DATA) := by
  unfold write
  split
  case h_1 hs =>
    refine (guarded_withDrive fun drive => ?_).needs (.inl hs)
    simp only
    split
    · exact .ok (inBounds_fails _ _)
    · exact .ok (inBounds_requests
        (inBounds_receives (sectorBytes_pos _ _) (sectorBytes_le _ _) _))
  case h_2 hs =>
    refine Guarded.free ?_ (guarded_receiveData host hs h)
    rw [hs]
    nofun
  case h_3 hs =>
    refine (guarded_withDrive fun drive => ?_).needs (.inr hs)
    split
    · exact .ok (inBounds_fails _ _)
    · split
      · exact .ok (inBounds_fails _ _)
      · simp only
        split_ifs
        · exact .ok (inBounds_complete _)
        · exact .ok (inBounds_requests (inBounds_receives (by decide) (by decide) _))
  case h_4 h1 _ h3 => exact Guarded.free (fun hs => hs.elim h1 h3) (.ok h)

include h in
theorem bounded_seek : Bounded dev (seek dev) (dev.state = STATE_START_COMMAND) := by
  unfold seek
  split
  case h_1 hs =>
    refine (guarded_withDrive fun drive => ?_).needs hs
    split_ifs
    · exact .ok (inBounds_fails _ _)
    · split
      · exact .ok (inBounds_fails _ _)
      · split
        · exact .ok (inBounds_fails _ _)
        · exact .ok trivial
  case h_2 hs => exact Guarded.free (by rw [hs]; nofun) (.ok (inBounds_complete dev))
  case h_3 h1 _ => exact Guarded.free h1 (.ok h)

include h in
theorem bounded_specify : Bounded dev (specify dev) (dev.state = STATE_RECEIVED_DATA) := by
  unfold specify
  split
  case h_1 hs =>
    refine Guarded.free ?_ (.ok (inBounds_receives (by decide) (by decide) dev))
    rw [hs]
    nofun
  case h_2 hs => exact (guarded_withDrive fun drive => .ok (inBounds_complete _)).needs hs
  case h_3 _ h2 => exact Guarded.free h2 (.ok h)

include h in
theorem bounded_read_ecc_burst_len : Bounded dev (read_ecc_burst_len dev) False := by
  refine Guarded.free (fun hf => hf) ?_
  unfold read_ecc_burst_len
  split
  · exact .ok (inBounds_sends (by decide) (by decide) _)
  · exact .ok (inBounds_complete dev)
  · exact .ok h

include h in
theorem bounded_read_buffer (host : Host) : Bounded dev (read_buffer host dev) False := by
  refine Guarded.free (fun hf => hf) ?_
  unfold read_buffer
  split
  case h_1 => exact .ok (inBounds_requests (inBounds_sends (by decide) (by decide) _))
  case h_2 hs => exact guarded_sendData host hs h
  case h_3 => exact .ok (inBounds_complete dev)
  case h_4 => exact .ok h

include h in
theorem bounded_write_buffer (host : Host) : Bounded dev (write_buffer host dev) False := by
  refine Guarded.free (fun hf => hf) ?_
  unfold write_buffer
  split
  case h_1 => exact .ok (inBounds_requests (inBounds_receives (by decide) (by decide) _))
  case h_2 hs => exact guarded_receiveData host hs h
  case h_3 => exact .ok (inBounds_complete dev)
  case h_4 => exact .ok h

include h in
theorem bounded_inquiry_st11 : Bounded dev (inquiry_st11 dev) False := by
  refine Guarded.free (fun hf => hf) ?_
  unfold inquiry_st11
  split_ifs
  · split
    · exact .ok (inBounds_sends (by decide) (by decide) _)
    · exact .ok (inBounds_complete dev)
    · exact .ok h
  · exact .ok (inBounds_fails _ dev)

theorem bounded_v86p_poweroff : Bounded dev (v86p_poweroff dev) False := by
  refine Guarded.free (fun hf => hf) ?_
  unfold v86p_poweroff
  split_ifs
  · exact .ok (inBounds_complete dev)
  · exact .ok (inBounds_fails _ dev)

include h in
theorem bounded_set_step_rate_dtc (host : Host) :
    Bounded dev (set_step_rate_dtc host dev) (isSt11 dev) := by
  unfold set_step_rate_dtc
  split_ifs with hdtc hst11
  · refine Guarded.free ?_ (.ok (inBounds_complete dev))
    exact not_st11_of_dtc hdtc
  · refine (guarded_withDrive fun drive => ?_).needs hst11
    have hchs := inBounds_congr (transfer_chs (chsSector dev) dev drive) h
    simp only
    split
    · exact .ok (inBounds_fails _ _)
    · rename_i next addr hget
      have hnext := congrArg (fun r => transfer r.1) hget
      rw [transfer_get_sector] at hnext
      have hin : InBounds next := inBounds_congr hnext.symm hchs
      split
      · exact .ok (inBounds_fails _ _)
      · rename_i wrote hwrite
        have hwrote := congrArg (fun r => transfer r.1) hwrite
        split_ifs
        · exact .ok (inBounds_complete _)
        · exact .ok (inBounds_congr ((transfer_next_sector _ _).trans hwrote.symm) hin)
  · exact Guarded.free hst11 (.ok (inBounds_fails _ dev))

include h in
theorem bounded_get_drive_params_dtc :
    Bounded dev (get_drive_params_dtc dev) (dev.state = STATE_START_COMMAND) := by
  unfold get_drive_params_dtc
  split
  case h_1 hs =>
    exact (guarded_withDrive fun drive =>
      .ok (inBounds_sends (by decide) (by decide) _)).needs hs
  case h_2 hs => exact Guarded.free (by rw [hs]; nofun) (.ok (inBounds_complete dev))
  case h_3 h1 _ => exact Guarded.free h1 (.ok h)

include h in
theorem bounded_set_geometry_dtc : Bounded dev (set_geometry_dtc dev) False := by
  refine Guarded.free (fun hf => hf) ?_
  unfold set_geometry_dtc
  split
  · exact .ok (inBounds_receives (by decide) (by decide) _)
  · exact .ok (inBounds_complete dev)
  · exact .ok h

include h in
theorem bounded_get_geometry_dtc :
    Bounded dev (get_geometry_dtc dev) (dev.state = STATE_START_COMMAND) := by
  unfold get_geometry_dtc
  split
  case h_1 hs =>
    exact (guarded_withDrive fun drive =>
      .ok (inBounds_sends (by decide) (by decide) _)).needs hs
  case h_2 hs => exact Guarded.free (by rw [hs]; nofun) (.ok (inBounds_complete dev))
  case h_3 h1 _ => exact Guarded.free h1 (.ok h)

/-- Each command fails just when it uses a drive that is not there. -/
theorem bounded_execute (host : Host) (h : InBounds dev) (command : Command) :
    Bounded dev (execute host dev command) (usesDrive dev command) := by
  cases command with
  | test_drive_ready => exact bounded_test_drive_ready
  | recalibrate => exact bounded_recalibrate h
  | status => exact bounded_status h
  | format_drive => exact bounded_format h _ _ fun drive => transfer_chs _ dev drive
  | verify => exact bounded_verify h
  | format_st11 =>
    exact bounded_on_st11 (bounded_format h _ _ fun drive => transfer_chs 1 dev drive)
  | format_track => exact bounded_format h _ _ fun drive => transfer_chs 1 dev drive
  | get_geometry_st11 => exact bounded_on_st11 (bounded_read h host)
  | read => exact bounded_read h host
  | set_geometry_st11 =>
    have hst11 := bounded_on_st11 (bounded_write h host)
    unfold execute set_geometry_st11
    split_ifs with hdtc hno
    · refine Guarded.free (fun hno => ?_) (.ok (inBounds_complete dev))
      exact not_st11_of_dtc hdtc hno.1
    · rwa [if_pos hno] at hst11
    · rwa [if_neg hno] at hst11
  | write => exact bounded_write h host
  | seek => exact bounded_seek h
  | specify => exact bounded_specify h
  | read_ecc_burst_len => exact bounded_read_ecc_burst_len h
  | read_buffer => exact bounded_read_buffer h host
  | write_buffer => exact bounded_write_buffer h host
  | inquiry_st11 => exact bounded_inquiry_st11 h
  | v86p_poweroff => exact bounded_v86p_poweroff
  | diagnostic => exact Guarded.free (fun hf => hf) (.ok (inBounds_complete dev))
  | set_step_rate_dtc => exact bounded_set_step_rate_dtc h host
  | get_drive_params_dtc => exact bounded_get_drive_params_dtc h
  | set_geometry_dtc => exact bounded_set_geometry_dtc h
  | get_geometry_dtc => exact bounded_get_geometry_dtc h
  | unknown => exact Guarded.free (fun hf => hf) (.ok (inBounds_fails _ dev))

end

/-! ## Steps and runs -/

/-- The steps that stay in the arrays: a callback uses one of the drives that there are, and the
data port is not read once more than the buffer has bytes while a command has nothing to send. -/
def Good (dev : Hdc) : Op → Prop
  | .callback _ => usesDrive dev (decode (dev.command.get 0)) → driveSel dev < MFM_NUM
  | .read port =>
    (port &&& 3).toNat = 0 → dev.state = STATE_SEND_DATA → dev.buff_cnt = 0 →
      dev.buff_pos < SECTOR_SIZE + 4
  | .write _ _ => True

theorem endOfTransfer_of_ne {dev : Hdc} {state : HdcState} (h : dev.buff_pos ≠ dev.buff_cnt) :
    endOfTransfer dev state = dev := if_neg h

/-- A byte more, in a state that the end of the transfer leaves. -/
theorem inBounds_endOfTransfer {dev : Hdc} {state : HdcState}
    (hend : dev.buff_pos = dev.buff_cnt → Ahead (state, 0, 0))
    (h : dev.buff_pos ≠ dev.buff_cnt → InBounds dev) : InBounds (endOfTransfer dev state) := by
  unfold endOfTransfer
  split_ifs with heq
  · exact hend heq
  · exact h heq

/-- A read of the data port that finds bytes, or the commands with none of them. -/
theorem guarded_takeByte {dev : Hdc} (h : InBounds dev) (hs : dev.state = STATE_SEND_DATA) :
    Guarded
      (match takeByte dev with
        | .error fault => .error fault
        | .ok (ret, dev) => .ok (ret, endOfTransfer dev STATE_SENT_DATA) :
        Except Fault (Byte × Hdc))
      (dev.buff_cnt = 0 → dev.buff_pos < SECTOR_SIZE + 4) (fun r => InBounds r.2) := by
  have hend : dev.buff_cnt = 0 ∨ dev.buff_pos < dev.buff_cnt ∧ dev.buff_cnt ≤ SECTOR_SIZE + 4 := by
    unfold InBounds transfer at h
    rw [hs] at h
    exact h
  by_cases hlt : dev.buff_pos < SECTOR_SIZE + 4
  · obtain ⟨byte, hbyte⟩ := takeByte_ok hlt
    rw [hbyte]
    refine ⟨fun _ => hlt, inBounds_endOfTransfer (fun _ => trivial) fun hne => ?_⟩
    unfold InBounds transfer
    simp only [hs] at hne ⊢
    rcases hend with h0 | hpos
    · exact .inl h0
    · exact .inr ⟨by omega, hpos.2⟩
  · rw [takeByte_fault hlt]
    exact fun hguard => hlt (hguard (by omega))

theorem guarded_read {dev : Hdc} (h : InBounds dev) (port : BitVec 16) :
    Guarded (step dev (.read port)) (Good dev (.read port)) InBounds := by
  unfold step Good st506_read
  refine Guarded.map ?_
  split
  case h_1 hport =>
    refine Guarded.needs hport ?_
    simp only
    split
    case h_1 hs =>
      refine Guarded.free (fun hno => ?_) (.ok trivial)
      exact absurd (hs.symm.trans hno) nofun
    case h_2 hs => exact Guarded.needs hs (@guarded_takeByte (acknowledged dev) h hs)
    case h_3 _ hs => exact Guarded.free hs (.ok h)
  case h_2 hport => exact Guarded.free (by rw [hport]; nofun) (.ok h)
  case h_3 hport => exact Guarded.free (by rw [hport]; nofun) (.ok h)
  case h_4 hport _ _ => exact Guarded.free hport (.ok h)

theorem guarded_write {dev : Hdc} (h : InBounds dev) (port : BitVec 16) (val : Byte) :
    Guarded (step dev (.write port val)) True InBounds := by
  unfold step st506_write
  simp only
  split
  case h_1 =>
    split
    case h_1 hs =>
      have hpos : dev.buff_pos < dev.buff_cnt ∧ dev.buff_cnt = 6 := by
        unfold InBounds transfer at h
        rw [hs] at h
        exact h
      unfold putCommand
      rw [dif_pos (by omega)]
      refine .ok (inBounds_endOfTransfer (fun _ => rfl) fun hne => ?_)
      unfold InBounds transfer
      simp only [hs] at hne ⊢
      exact ⟨by omega, hpos.2⟩
    case h_2 hs =>
      have hpos : dev.buff_pos < dev.buff_cnt ∧ dev.buff_cnt ≤ SECTOR_SIZE + 4 := by
        unfold InBounds transfer at h
        rw [hs] at h
        exact h
      unfold putByte
      rw [dif_pos (by omega)]
      refine .ok (inBounds_endOfTransfer (fun _ => trivial) fun hne => ?_)
      unfold InBounds transfer
      simp only [hs] at hne ⊢
      exact ⟨by omega, hpos.2⟩
    case h_3 => exact .ok h
  case h_2 =>
    split_ifs
    · exact .ok trivial
    · exact .ok h
  case h_3 => exact .ok ⟨Nat.succ_pos 5, rfl⟩
  case h_4 =>
    refine .ok ?_
    split_ifs <;> exact h

theorem guarded_callback {dev : Hdc} (h : InBounds dev) (host : Host) :
    Guarded (step dev (.callback host)) (Good dev (.callback host)) InBounds :=
  @bounded_execute (preset dev) host h (decode (dev.command.get 0))

theorem guarded_step {dev : Hdc} (h : InBounds dev) (op : Op) :
    Guarded (step dev op) (Good dev op) InBounds := by
  cases op with
  | read port => exact guarded_read h port
  | write port val => exact guarded_write h port val
  | callback host => exact guarded_callback h host

theorem inBounds_st506_init (type : Nat) (options : Options) (drives : Vector Drive MFM_NUM) :
    InBounds (st506_init type options drives) := trivial

/-- From the start on, any accesses and callbacks, in any order: they stay in the arrays just when
each of them is good in the state it comes to. -/
theorem indices_stay_in_bounds_while_steps_are_good (type : Nat) (options : Options)
    (drives : Vector Drive MFM_NUM) (ops : List Op) :
    (∃ dev, run (st506_init type options drives) ops = .ok dev) ↔
      Along step Good (st506_init type options drives) ops :=
  (guarded_foldlM (fun _ op h => guarded_step h op)
    (inBounds_st506_init type options drives) ops).isOk_iff

/-! ## Outside of the arrays -/

/-- A read of the data port while there is nothing to send. -/
theorem read_advances (port : BitVec 16) (hport : (port &&& 3).toNat = 0) {dev : Hdc}
    (hs : dev.state = STATE_SEND_DATA) (h0 : dev.buff_cnt = 0)
    (hlt : dev.buff_pos < SECTOR_SIZE + 4) :
    ∃ dev', step dev (.read port) = .ok dev' ∧
      dev'.state = STATE_SEND_DATA ∧ dev'.buff_cnt = 0 ∧ dev'.buff_pos = dev.buff_pos + 1 := by
  have hread : step dev (.read port) =
      ((takeByte (acknowledged dev)).map fun r => endOfTransfer r.2 STATE_SENT_DATA) := by
    have hs' : (acknowledged dev).state = STATE_SEND_DATA := hs
    unfold step st506_read
    simp only [hport, hs']
    cases takeByte (acknowledged dev) <;> rfl
  obtain ⟨byte, hbyte⟩ := @takeByte_ok (acknowledged dev) hlt
  rw [hbyte] at hread
  have hne : dev.buff_pos + 1 ≠ dev.buff_cnt := by omega
  exact ⟨_, hread.trans (congrArg _ (endOfTransfer_of_ne hne)), hs, h0, rfl⟩

/-- Reads of the data port while there is nothing to send. -/
theorem reads_advance (port : BitVec 16) (hport : (port &&& 3).toNat = 0) (n : Nat) {dev : Hdc}
    (hs : dev.state = STATE_SEND_DATA) (h0 : dev.buff_cnt = 0)
    (hle : dev.buff_pos + n ≤ SECTOR_SIZE + 4) :
    ∃ dev', run dev (List.replicate n (.read port)) = .ok dev' ∧
      dev'.state = STATE_SEND_DATA ∧ dev'.buff_cnt = 0 ∧ dev'.buff_pos = dev.buff_pos + n := by
  induction n generalizing dev with
  | zero => exact ⟨dev, rfl, hs, h0, rfl⟩
  | succ n ih =>
    have hlt : dev.buff_pos < SECTOR_SIZE + 4 := by omega
    obtain ⟨next, hnext, hs', h0', hpos⟩ := read_advances port hport hs h0 hlt
    obtain ⟨last, hlast, hs'', h0'', hpos'⟩ := ih hs' h0' (by omega)
    refine ⟨last, ?_, hs'', h0'', by omega⟩
    unfold run at hlast ⊢
    rw [List.replicate_succ, List.foldlM_cons, hnext]
    exact hlast

/-- A format or a verify that waits can be read past the end of the buffer. -/
theorem reads_run_out (port : BitVec 16) (hport : (port &&& 3).toNat = 0) {dev : Hdc}
    (ht : transfer dev = (STATE_SEND_DATA, 0, 0)) :
    run dev (List.replicate (SECTOR_SIZE + 5) (.read port)) = .error (.buff (SECTOR_SIZE + 4)) := by
  have hs : dev.state = STATE_SEND_DATA := congrArg (·.1) ht
  have h0 : dev.buff_cnt = 0 := congrArg (·.2.2) ht
  have hpos : dev.buff_pos = 0 := congrArg (·.2.1) ht
  obtain ⟨last, hlast, hs', -, hpos'⟩ := reads_advance port hport (SECTOR_SIZE + 4) hs h0
    (by omega)
  have hfull : last.buff_pos = SECTOR_SIZE + 4 := by omega
  have hstep : step last (.read port) = .error (.buff (SECTOR_SIZE + 4)) := by
    have hs'' : (acknowledged last).state = STATE_SEND_DATA := hs'
    have hfault : takeByte (acknowledged last) = .error (.buff last.buff_pos) :=
      @takeByte_fault (acknowledged last) (fun hlt => by
        have hlt' : last.buff_pos < SECTOR_SIZE + 4 := hlt
        omega)
    rw [hfull] at hfault
    unfold step st506_read
    simp only [hport, hs'', hfault]
    rfl
  unfold run at hlast ⊢
  rw [show SECTOR_SIZE + 5 = SECTOR_SIZE + 4 + 1 from rfl, List.replicate_succ', List.foldlM_append,
    hlast]
  change (step last (.read port) >>= fun dev => pure dev) = _
  rw [hstep]
  rfl

/-- A command that the guest sends. -/
def sendCommand (bytes : List Byte) : List Op := .write 0x322 0 :: bytes.map (.write 0x320)

/-- A controller without drives, and a machine that answers nothing. -/
def bare : Hdc :=
  st506_init 0 ⟨0, 0⟩ (Vector.replicate MFM_NUM ⟨false, 0, 0, 0, 0, 0, 0, 0, 0⟩)

def noHost : Host := ⟨fun _ => 0, none, false⟩

/-- A test of the last of eight drives, where there are two, and a verify whose data the guest
goes on to read. -/
theorem indices_leave_the_arrays :
    run bare (sendCommand [0x00, 0xe0, 0, 0, 0, 0] ++ [.callback noHost]) = .error (.drives 7) ∧
      run bare (sendCommand [0x05, 0, 0, 0, 0xff, 0] ++
        .callback noHost :: List.replicate (SECTOR_SIZE + 5) (.read 0x320)) =
        .error (.buff (SECTOR_SIZE + 4)) := by
  refine ⟨rfl, ?_⟩
  have hwaits : (run bare (sendCommand [0x05, 0, 0, 0, 0xff, 0] ++
      [.callback noHost])).toOption.map transfer = some (STATE_SEND_DATA, 0, 0) := by
    decide +kernel
  rw [List.append_cons]
  cases hrun : run bare (sendCommand [0x05, 0, 0, 0, 0xff, 0] ++ [.callback noHost]) with
  | error fault =>
    rw [hrun] at hwaits
    cases hwaits
  | ok dev =>
    rw [hrun] at hwaits
    have hreads := reads_run_out 0x320 (by decide) (Option.some.inj hwaits)
    unfold run at hrun hreads ⊢
    rw [List.foldlM_append, hrun]
    exact hreads

end blumach.hdc_st506_xt
