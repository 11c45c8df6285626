-- The commands that format: which sectors of the image they clear, beside the ones that they
-- name.
import BluMach.HdcSt506Sectors

namespace blumach.hdc_st506_xt

open HdcState odometer

/-! ## Callbacks alone -/

/-- A command of which only the timer has a say. -/
def callbacks (dev : Hdc) (hosts : List Host) : Except Fault Hdc := run dev (hosts.map .callback)

theorem callbacks_cons {dev next : Hdc} {host : Host} (hosts : List Host)
    (h : st506_callback host dev = .ok next) :
    callbacks dev (host :: hosts) = callbacks next hosts := by
  unfold callbacks run
  rw [List.map_cons, List.foldlM_cons, show step dev (.callback host) = .ok next from h]
  rfl

theorem callback_eq {dev dev0 : Hdc} (host : Host) (h : dev.command = dev0.command) :
    st506_callback host dev = execute host (preset dev) (decode (dev0.command.get 0)) := by
  unfold st506_callback
  rw [h]

/-- The commands that do nothing more once they are complete. -/
def Rests (command : Command) : Prop :=
  ∀ host dev, dev.state = STATE_COMPLETION_BYTE → execute host dev command = .ok dev

/-- After its end a command changes nothing more. -/
theorem ended_callbacks {dev : Hdc} (hrests : Rests (decode (dev.command.get 0)))
    (hstate : dev.state = STATE_COMPLETION_BYTE) (hosts : List Host) :
    ∃ dev', callbacks dev hosts = .ok dev' ∧ dev'.touched = dev.touched ∧
      dev'.completions = dev.completions ∧ dev'.error = dev.error := by
  induction hosts generalizing dev with
  | nil => exact ⟨dev, rfl, rfl, rfl, rfl⟩
  | cons host hosts ih =>
    have hstep : st506_callback host dev = .ok (preset dev) := hrests host (preset dev) hstate
    rw [callbacks_cons hosts hstep]
    exact @ih (preset dev) hrests hstate

/-! ## The turns of a format -/

/-- A command that formats has ended, and this is what it did to the image. -/
def Formatted (dev : Hdc) (hosts : List Host) (new : List Touch) : Prop :=
  ∃ dev' c, callbacks dev hosts = .ok dev' ∧ dev'.touched = dev.touched ++ new ∧
    dev'.completions = dev.completions ++ [c]

theorem found_turned {type : Nat} {drive : Drive} {p : Place} (cylinder : BitVec 16) :
    Found type { drive with cylinder := cylinder } p ↔ Found type drive p :=
  ⟨fun ⟨hp, hphysical, hhead, hsector⟩ => ⟨hp, hphysical, hhead, hsector⟩,
    fun ⟨hp, hphysical, hhead, hsector⟩ => ⟨hp, hphysical, hhead, hsector⟩⟩

section

variable {dev : Hdc} {drive : Drive} {sector : Hdc → Nat} {count : Drive → BitVec 32}

/-- A command that formats, on the address of the command with the sector that is given. -/
structure IsFormat (dev : Hdc) (sector : Hdc → Nat) (count : Drive → BitVec 32) : Prop where
  rests : Rests (decode (dev.command.get 0))
  execute : ∀ host dev', execute host dev' (decode (dev.command.get 0)) =
    format (fun dev drive => chs (sector dev) dev drive) count dev'
  /-- The sector is fixed, or is in the command. -/
  sector : sector (preset dev) = sector dev
  /-- The count does not depend on where the drive is. -/
  count : ∀ drive cylinder, count { drive with cylinder := cylinder } = count drive

/-- The controller and its drive, after the first turn. -/
structure Addressed (dev : Hdc) (drive : Drive) (sector : Nat) (next : Hdc) : Prop where
  state : next.state = STATE_SEND_DATA
  type : next.type = dev.type
  command : next.command = dev.command
  place : place next = ⟨chsCylinder dev, chsHead dev, sector⟩
  drive : ∃ cylinder, next.drives[driveSel dev]? = some { drive with cylinder := cylinder }
  touched : next.touched = dev.touched
  completions : next.completions = dev.completions

theorem format_addressed (hf : IsFormat dev sector count) (hstate : dev.state = STATE_START_COMMAND)
    (hdrive : dev.drives[driveSel dev]? = some drive) (host : Host) :
    ∃ next, st506_callback host dev = .ok next ∧ Addressed dev drive (sector dev) next := by
  have hpreset : (preset dev).drives[(preset dev).drive_sel]? = some drive :=
    drive_preset rfl hdrive
  obtain ⟨b, hchs⟩ := chs_eq (sector dev) (preset dev) drive
  have hstate' : (preset dev).state = STATE_START_COMMAND := hstate
  rw [callback_eq host rfl, hf.execute]
  unfold format
  rw [hstate']
  simp only
  rw [withDrive_some hpreset, hf.sector, hchs]
  refine ⟨_, rfl, rfl, rfl, rfl, rfl, ⟨(start (preset dev) drive).cylinder, ?_⟩, rfl, rfl⟩
  exact @getElem?_setDrive (moveTo _ _) _ _ hpreset

/-- The sectors are cleared, or the address was refused and the command has ended. -/
theorem format_cleared (hf : IsFormat dev sector count) {next : Hdc}
    (h : Addressed dev drive (sector dev) next)
    (hfound : Found dev.type drive ⟨chsCylinder dev, chsHead dev, sector dev⟩) (host : Host) :
    ∃ next', st506_callback host next = .ok next' ∧ next'.state = STATE_SENT_DATA ∧
      next'.command = dev.command ∧ next'.completions = dev.completions ∧
      next'.touched = dev.touched ++ [.zero drive.hdd_num
        (lba drive ⟨chsCylinder dev, chsHead dev, sector dev⟩) (count drive)] := by
  obtain ⟨cylinder, hdrive⟩ := h.drive
  have hstate : (preset next).state = STATE_SEND_DATA := h.state
  have hplace : place (preset next) = _ := h.place
  have hsector : Found (preset next).type { drive with cylinder := cylinder }
      (place (preset next)) := by
    rw [hplace, show (preset next).type = dev.type from h.type]
    exact (found_turned cylinder).mpr hfound
  rw [callback_eq host h.command, hf.execute]
  unfold format
  rw [hstate]
  simp only
  rw [withDrive_some (drive_preset h.command hdrive), get_sector_found hsector, hplace]
  simp only [hf.count]
  refine ⟨_, rfl, rfl, h.command, h.completions, ?_⟩
  exact congrArg (· ++ _) h.touched

theorem format_refused (hf : IsFormat dev sector count) {next : Hdc}
    (h : Addressed dev drive (sector dev) next)
    (hlost : ¬Found dev.type drive ⟨chsCylinder dev, chsHead dev, sector dev⟩) (host : Host) :
    ∃ next' c, st506_callback host next = .ok next' ∧ next'.state = STATE_COMPLETION_BYTE ∧
      next'.command = dev.command ∧ next'.touched = dev.touched ∧
      next'.completions = dev.completions ++ [c] := by
  obtain ⟨cylinder, hdrive⟩ := h.drive
  have hstate : (preset next).state = STATE_SEND_DATA := h.state
  have hsector : ¬Found (preset next).type { drive with cylinder := cylinder }
      (place (preset next)) := by
    rw [show place (preset next) = _ from h.place, show (preset next).type = dev.type from h.type]
    exact fun hfound => hlost ((found_turned cylinder).mp hfound)
  obtain ⟨err, herr⟩ := get_sector_lost hsector
  rw [callback_eq host h.command, hf.execute]
  unfold format
  rw [hstate]
  simp only
  rw [withDrive_some (drive_preset h.command hdrive), herr]
  refine ⟨_, (preset next).compl ||| 0x02, rfl, rfl, h.command, h.touched, ?_⟩
  exact congrArg (· ++ _) h.completions

theorem format_completed (hf : IsFormat dev sector count) {next : Hdc}
    (hstate : next.state = STATE_SENT_DATA) (hcommand : next.command = dev.command) (host : Host) :
    ∃ next' c, st506_callback host next = .ok next' ∧ next'.state = STATE_COMPLETION_BYTE ∧
      next'.command = dev.command ∧ next'.touched = next.touched ∧
      next'.completions = next.completions ++ [c] := by
  rw [callback_eq host hcommand, hf.execute]
  unfold format
  rw [show (preset next).state = STATE_SENT_DATA from hstate]
  exact ⟨_, (preset next).compl, rfl, rfl, hcommand, rfl, rfl⟩

/-- What a command that formats does to the image, in any number of callbacks that are enough. -/
theorem format_found (hf : IsFormat dev sector count) (hstate : dev.state = STATE_START_COMMAND)
    (hdrive : dev.drives[driveSel dev]? = some drive)
    (hfound : Found dev.type drive ⟨chsCylinder dev, chsHead dev, sector dev⟩)
    {hosts : List Host} (hlen : 3 ≤ hosts.length) :
    Formatted dev hosts [.zero drive.hdd_num
      (lba drive ⟨chsCylinder dev, chsHead dev, sector dev⟩) (count drive)] := by
  match hosts, hlen with
  | host1 :: host2 :: host3 :: hosts, _ =>
    obtain ⟨next1, hstep1, haddressed⟩ := format_addressed hf hstate hdrive host1
    obtain ⟨next2, hstep2, hstate2, hcommand2, hcompletions2, htouched2⟩ :=
      format_cleared hf haddressed hfound host2
    obtain ⟨next3, c, hstep3, hstate3, hcommand3, htouched3, hcompletions3⟩ :=
      format_completed hf hstate2 hcommand2 host3
    obtain ⟨last, hlast, htouched, hcompletions, -⟩ :=
      ended_callbacks (by rw [hcommand3]; exact hf.rests) hstate3 hosts
    refine ⟨last, c, ?_, ?_, ?_⟩
    · rw [callbacks_cons _ hstep1, callbacks_cons _ hstep2, callbacks_cons _ hstep3]
      exact hlast
    · rw [htouched, htouched3, htouched2]
    · rw [hcompletions, hcompletions3, hcompletions2]

theorem format_lost (hf : IsFormat dev sector count) (hstate : dev.state = STATE_START_COMMAND)
    (hdrive : dev.drives[driveSel dev]? = some drive)
    (hlost : ¬Found dev.type drive ⟨chsCylinder dev, chsHead dev, sector dev⟩)
    {hosts : List Host} (hlen : 3 ≤ hosts.length) : Formatted dev hosts [] := by
  match hosts, hlen with
  | host1 :: host2 :: hosts, _ =>
    obtain ⟨next1, hstep1, haddressed⟩ := format_addressed hf hstate hdrive host1
    obtain ⟨next2, c, hstep2, hstate2, hcommand2, htouched2, hcompletions2⟩ :=
      format_refused hf haddressed hlost host2
    obtain ⟨last, hlast, htouched, hcompletions, -⟩ :=
      ended_callbacks (by rw [hcommand2]; exact hf.rests) hstate2 hosts
    refine ⟨last, c, ?_, ?_, ?_⟩
    · rw [callbacks_cons _ hstep1, callbacks_cons _ hstep2]
      exact hlast
    · rw [htouched, htouched2, List.append_nil]
    · rw [hcompletions, hcompletions2]

end

/-! ## The sectors that are cleared -/

/-- The sectors of an image that an access clears. -/
def Touch.Clears (image : Byte) (sector : Nat) : Touch → Prop
  | .zero hdd_num addr count => image = hdd_num ∧ addr ≤ sector ∧ sector < addr + count.toNat
  | _ => False

def Touch.isZero : Touch → Prop
  | .zero .. => True
  | _ => False

/-- A command that formats comes to its end in any callbacks that are enough, does nothing to any
image but clear sectors, and the sectors that it clears are as they should be. -/
def Formats (dev : Hdc) (asked : (Byte → Nat → Prop) → Prop) : Prop :=
  ∀ hosts : List Host, 3 ≤ hosts.length → ∃ new, Formatted dev hosts new ∧
    (∀ t ∈ new, t.isZero) ∧ asked fun image sector => ∃ t ∈ new, t.Clears image sector

/-- What is done is done once. -/
theorem formatted_unique {dev : Hdc} {hosts : List Host} {new new' : List Touch}
    (h : Formatted dev hosts new) (h' : Formatted dev hosts new') : new = new' := by
  obtain ⟨last, -, hrun, htouched, -⟩ := h
  obtain ⟨last', -, hrun', htouched', -⟩ := h'
  obtain rfl := Except.ok.inj (hrun.symm.trans hrun')
  exact List.append_cancel_left (htouched.symm.trans htouched')

theorem formats_iff {dev : Hdc} {asked : (Byte → Nat → Prop) → Prop} {new : List Touch}
    (hzero : ∀ t ∈ new, t.isZero)
    (h : ∀ hosts : List Host, 3 ≤ hosts.length → Formatted dev hosts new) :
    Formats dev asked ↔ asked fun image sector => ∃ t ∈ new, t.Clears image sector := by
  constructor
  · intro hformats
    have hlen : 3 ≤ (List.replicate 3 serving).length := Nat.le_refl 3
    obtain ⟨new', hnew', -, hexact⟩ := hformats _ hlen
    rwa [formatted_unique hnew' (h _ hlen)] at hexact
  · intro hexact hosts hlen
    exact ⟨new, h hosts hlen, hzero, hexact⟩

section

variable {dev : Hdc} {drive : Drive} {sector : Hdc → Nat} {count : Drive → BitVec 32}
  {asked : (Byte → Nat → Prop) → Prop}

/-- When the address is one of the drive, the cleared sectors are a range from there on. -/
theorem formats_found_iff (hf : IsFormat dev sector count)
    (hstate : dev.state = STATE_START_COMMAND) (hdrive : dev.drives[driveSel dev]? = some drive)
    (hfound : Found dev.type drive ⟨chsCylinder dev, chsHead dev, sector dev⟩) :
    Formats dev asked ↔ asked fun image a => image = drive.hdd_num ∧
      lba drive ⟨chsCylinder dev, chsHead dev, sector dev⟩ ≤ a ∧
      a < lba drive ⟨chsCylinder dev, chsHead dev, sector dev⟩ + (count drive).toNat := by
  have hzero : ∀ t ∈ [Touch.zero drive.hdd_num
      (lba drive ⟨chsCylinder dev, chsHead dev, sector dev⟩) (count drive)], t.isZero :=
    List.forall_mem_singleton.mpr trivial
  rw [formats_iff hzero fun hosts => format_found hf hstate hdrive hfound]
  simp only [List.mem_singleton, exists_eq_left]
  rfl

/-- When the address is refused, nothing is cleared. -/
theorem formats_lost_iff (hf : IsFormat dev sector count)
    (hstate : dev.state = STATE_START_COMMAND) (hdrive : dev.drives[driveSel dev]? = some drive)
    (hlost : ¬Found dev.type drive ⟨chsCylinder dev, chsHead dev, sector dev⟩) :
    Formats dev asked ↔ asked fun _ _ => False := by
  rw [formats_iff (List.forall_mem_nil _) fun hosts => format_lost hf hstate hdrive hlost]
  simp only [List.not_mem_nil, false_and, exists_false]

end

/-! ## The track -/

/-- The sectors of the track that a command names. -/
def TrackSector (dev : Hdc) (drive : Drive) (a : Nat) : Prop :=
  ∃ sector < drive.cfg_spt.toNat, a = lba drive ⟨chsCylinder dev, chsHead dev, sector⟩

def ClearsTrack (dev : Hdc) (drive : Drive) : Prop :=
  Formats dev fun cleared =>
    ∀ image a, cleared image a ↔ image = drive.hdd_num ∧ TrackSector dev drive a

/-- The first sector is taken for the second one. -/
def trackSector (_ : Hdc) : Nat := 1

def trackCount (drive : Drive) : BitVec 32 := BitVec.ofNat 32 drive.cfg_spt.toNat

theorem isFormat_track {dev : Hdc} (hcommand : decode (dev.command.get 0) = .format_track) :
    IsFormat dev trackSector trackCount where
  rests := by
    rw [hcommand]
    intro host dev hstate
    unfold execute format_track format
    simp only [hstate]
  execute := by
    rw [hcommand]
    intro host dev'
    rfl
  sector := rfl
  count := fun _ _ => rfl

theorem trackSector_lba {dev : Hdc} {drive : Drive} (a : Nat) :
    TrackSector dev drive a ↔
      (chsCylinder dev * drive.cfg_hpc.toNat + chsHead dev) * drive.cfg_spt.toNat ≤ a ∧
        a < (chsCylinder dev * drive.cfg_hpc.toNat + chsHead dev) * drive.cfg_spt.toNat +
          drive.cfg_spt.toNat := by
  unfold TrackSector lba linear
  simp only
  constructor
  · rintro ⟨sector, hlt, rfl⟩
    omega
  · rintro ⟨hle, hlt⟩
    refine ⟨a - (chsCylinder dev * drive.cfg_hpc.toNat + chsHead dev) * drive.cfg_spt.toNat, ?_, ?_⟩
    · omega
    · omega

/-- A track with any sectors is not the range that is cleared. -/
theorem clearsTrack_iff {dev : Hdc} {drive : Drive} (hstate : dev.state = STATE_START_COMMAND)
    (hdrive : dev.drives[driveSel dev]? = some drive)
    (hcommand : decode (dev.command.get 0) = .format_track) :
    ClearsTrack dev drive ↔ drive.cfg_spt.toNat = 0 := by
  have hf := isFormat_track hcommand
  unfold ClearsTrack
  by_cases hfound : Found dev.type drive ⟨chsCylinder dev, chsHead dev, 1⟩
  · rw [formats_found_iff hf hstate hdrive hfound]
    have hsector : 1 < drive.cfg_spt.toNat := hfound.sector
    refine iff_of_false (fun hexact => ?_) (by omega)
    -- the first sector of the track is left out
    obtain ⟨-, hle, -⟩ := (hexact drive.hdd_num
      ((chsCylinder dev * drive.cfg_hpc.toNat + chsHead dev) * drive.cfg_spt.toNat)).mpr
      ⟨rfl, (trackSector_lba _).mpr (by omega)⟩
    have hnext : (chsCylinder dev * drive.cfg_hpc.toNat + chsHead dev) * drive.cfg_spt.toNat + 1 ≤
        (chsCylinder dev * drive.cfg_hpc.toNat + chsHead dev) * drive.cfg_spt.toNat := hle
    omega
  · rw [formats_lost_iff hf hstate hdrive hfound]
    constructor
    · intro hexact
      by_contra hne
      exact (hexact drive.hdd_num
        ((chsCylinder dev * drive.cfg_hpc.toNat + chsHead dev) * drive.cfg_spt.toNat)).mpr
        ⟨rfl, (trackSector_lba _).mpr (by omega)⟩
    · intro h0 image a
      refine iff_of_false id ?_
      rintro ⟨-, sector, hlt, -⟩
      omega

/-! ## The drive -/

/-- The sectors of a cylinder, and of the whole drive, in its own geometry. -/
def cylinderSize (drive : Drive) : Nat := drive.hpc.toNat * drive.spt.toNat

def driveSize (drive : Drive) : Nat := drive.tracks.toNat * cylinderSize drive

def ClearsDrive (dev : Hdc) (drive : Drive) : Prop :=
  Formats dev fun cleared =>
    (∀ image a, cleared image a → image = drive.hdd_num ∧ a < driveSize drive) ∧
      ∀ a, firstSector dev drive ≤ a → a < driveSize drive → cleared drive.hdd_num a

def driveCount (drive : Drive) : BitVec 32 :=
  BitVec.ofInt 32 ((drive.tracks.toNat - 1 : Int) * drive.hpc.toNat * drive.spt.toNat)

theorem isFormat_drive {dev : Hdc} (hcommand : decode (dev.command.get 0) = .format_drive) :
    IsFormat dev chsSector driveCount where
  rests := by
    rw [hcommand]
    intro host dev hstate
    unfold execute format_drive format
    simp only [hstate]
  execute := by
    rw [hcommand]
    intro host dev'
    rfl
  sector := rfl
  count := fun _ _ => rfl

/-- One cylinder is left out. A drive without cylinders has one less than none. -/
theorem driveCount_toNat (drive : Drive) :
    (driveCount drive).toNat =
      if drive.tracks.toNat = 0 then (2 ^ 32 - cylinderSize drive) % 2 ^ 32
      else (drive.tracks.toNat - 1) * cylinderSize drive := by
  have htracks := drive.tracks.isLt
  have hsize : cylinderSize drive ≤ 255 * 255 :=
    Nat.mul_le_mul (Nat.le_of_lt_succ drive.hpc.isLt) (Nat.le_of_lt_succ drive.spt.isLt)
  have hcount : (drive.tracks.toNat - 1 : Int) * drive.hpc.toNat * drive.spt.toNat =
      (drive.tracks.toNat - 1) * (cylinderSize drive : Int) := by
    unfold cylinderSize
    rw [Nat.cast_mul, Int.mul_assoc]
  unfold driveCount
  rw [hcount, BitVec.toNat_ofInt]
  generalize cylinderSize drive = size at *
  split_ifs with h0
  · rw [h0]
    omega
  · obtain ⟨t, ht⟩ := Nat.exists_eq_succ_of_ne_zero h0
    rw [ht]
    have hprod : t * size ≤ 65534 * (255 * 255) := Nat.mul_le_mul (by omega) hsize
    have hcast : ((t + 1 : Nat) - 1 : Int) * size = ((t * size : Nat) : Int) := by
      push_cast
      ring
    rw [show Nat.succ t = t + 1 from rfl, hcast, Nat.add_sub_cancel]
    omega

/-- The drive is cleared to its end, and not past it. -/
def DriveFits (dev : Hdc) (drive : Drive) : Prop :=
  cylinderSize drive = 0 ∨
    0 < drive.tracks.toNat ∧ firstSector dev drive = cylinderSize drive ∨
    drive.tracks.toNat = 1 ∧ cylinderSize drive ≤ firstSector dev drive

/-- A range against the end of the drive. -/
theorem range_fits_iff {num : Byte} {first n cap : Nat} :
    ((∀ image a, image = num ∧ first ≤ a ∧ a < first + n → image = num ∧ a < cap) ∧
      ∀ a, first ≤ a → a < cap → num = num ∧ first ≤ a ∧ a < first + n) ↔
      (n = 0 ∨ first + n ≤ cap) ∧ (cap ≤ first ∨ cap ≤ first + n) := by
  constructor
  · rintro ⟨hinside, hall⟩
    refine ⟨?_, ?_⟩
    · by_contra hout
      obtain ⟨-, hlast⟩ := hinside num (first + n - 1) ⟨rfl, by omega, by omega⟩
      omega
    · by_contra hout
      obtain ⟨-, -, hlast⟩ := hall (cap - 1) (by omega) (by omega)
      omega
  · rintro ⟨hinside, hall⟩
    refine ⟨?_, ?_⟩
    · rintro image a ⟨rfl, hle, hlt⟩
      exact ⟨rfl, by omega⟩
    · intro a hle hlt
      exact ⟨rfl, hle, by omega⟩

theorem clearsDrive_iff {dev : Hdc} {drive : Drive} (hstate : dev.state = STATE_START_COMMAND)
    (hdrive : dev.drives[driveSel dev]? = some drive)
    (hcommand : decode (dev.command.get 0) = .format_drive)
    (hfound : Found dev.type drive (start dev drive).place) :
    ClearsDrive dev drive ↔ DriveFits dev drive := by
  unfold ClearsDrive
  rw [formats_found_iff (isFormat_drive hcommand) hstate hdrive hfound]
  refine range_fits_iff.trans ?_
  rw [driveCount_toNat]
  change (_ ∨ firstSector dev drive + _ ≤ _) ∧ (_ ≤ firstSector dev drive ∨
    _ ≤ firstSector dev drive + _) ↔ _
  have hsize : cylinderSize drive ≤ 255 * 255 :=
    Nat.mul_le_mul (Nat.le_of_lt_succ drive.hpc.isLt) (Nat.le_of_lt_succ drive.spt.isLt)
  unfold DriveFits driveSize
  generalize firstSector dev drive = first
  generalize cylinderSize drive = size at *
  rcases Nat.eq_zero_or_pos drive.tracks.toNat with h0 | hpos
  · rw [if_pos h0, h0, Nat.zero_mul]
    omega
  · obtain ⟨t, ht⟩ := Nat.exists_eq_succ_of_ne_zero (Nat.ne_of_gt hpos)
    have hall : (t + 1) * size = t * size + size := Nat.succ_mul t size
    have hnone : t * size = 0 ↔ t = 0 ∨ size = 0 := Nat.mul_eq_zero
    rw [if_neg (Nat.ne_of_gt hpos), ht, show Nat.succ t = t + 1 from rfl, Nat.add_sub_cancel, hall]
    omega

/-- Neither command clears just what it names, but for a track without sectors, and for a drive
that is formatted from its second cylinder on. -/
theorem formats_clear_what_they_name_iff (dev : Hdc) (drive : Drive)
    (hstate : dev.state = STATE_START_COMMAND) (hdrive : dev.drives[driveSel dev]? = some drive) :
    (decode (dev.command.get 0) = .format_track →
      (ClearsTrack dev drive ↔ drive.cfg_spt.toNat = 0)) ∧
    (decode (dev.command.get 0) = .format_drive → Found dev.type drive (start dev drive).place →
      (ClearsDrive dev drive ↔ DriveFits dev drive)) :=
  ⟨clearsTrack_iff hstate hdrive, clearsDrive_iff hstate hdrive⟩

theorem small_found {command : Vector Byte 6} (hhead : chsHead (received 0 command) < 4)
    (hsector : chsSector (received 0 command) < 17) :
    Found 0 smallDrive (start (received 0 command) smallDrive).place :=
  ⟨rfl, fun htype => absurd htype (by decide), hhead, hsector⟩

/-- From the second cylinder on, the drive is cleared to its end. -/
theorem the_second_cylinder_and_the_rest_are_cleared :
    ClearsDrive (received 0 #v[0x04, 0, 0, 1, 0, 0]) smallDrive :=
  ((formats_clear_what_they_name_iff _ smallDrive rfl (received_drive (by decide +kernel))).2
    (by decide +kernel) (small_found (by decide +kernel) (by decide +kernel))).mpr
    (.inr (.inl ⟨by decide +kernel, by decide +kernel⟩))

/-- The first track of a drive keeps its first sector, and a drive its last cylinder. -/
theorem a_format_leaves_a_sector :
    ¬ClearsTrack (received 0 #v[0x06, 0, 0, 0, 0, 0]) smallDrive ∧
      ¬ClearsDrive (received 0 #v[0x04, 0, 0, 0, 0, 0]) smallDrive ∧
      Found 0 smallDrive (start (received 0 #v[0x04, 0, 0, 0, 0, 0]) smallDrive).place := by
  have hfound : Found 0 smallDrive (start (received 0 #v[0x04, 0, 0, 0, 0, 0]) smallDrive).place :=
    small_found (by decide +kernel) (by decide +kernel)
  refine ⟨fun htrack => ?_, fun hcleared => ?_, hfound⟩
  · have h0 : (17 : Byte).toNat = 0 :=
      (clearsTrack_iff rfl (received_drive (by decide +kernel)) (by decide +kernel)).mp htrack
    exact absurd h0 (by decide)
  · have hfits : DriveFits _ _ := (clearsDrive_iff rfl (received_drive (by decide +kernel))
      (by decide +kernel) hfound).mp hcleared
    rcases hfits with h0 | ⟨-, h1⟩ | ⟨h2, -⟩
    · exact absurd h0 (by decide +kernel)
    · exact absurd h1 (by decide +kernel)
    · exact absurd h2 (by decide +kernel)

end blumach.hdc_st506_xt
