-- Reads and writes of many sectors: what the controller does with the image, step by step, and
-- when these are just the sectors of the command.
import BluMach.HdcSt506Bounds
import BluMach.HdcSt506Walk

namespace blumach.hdc_st506_xt

open HdcState odometer

/-! ## What accesses and transfers keep -/

/-- What only the commands change. -/
def core (dev : Hdc) :=
  (dev.type, dev.command, dev.cyl_off, place dev, dev.count, dev.drives, dev.touched,
    dev.completions)

/-- A transfer is under way, and its end is ahead. -/
def Open (dev : Hdc) : Prop := dev.buff_pos < dev.buff_cnt ∧ dev.buff_cnt ≤ SECTOR_SIZE + 4

def Op.isCallback : Op → Bool
  | .callback _ => true
  | _ => false

/-- The steps in which a command goes on: no new command, no reset, and a machine that serves all
transfers and has all sectors. -/
def Goes (type : Nat) : Op → Prop
  | .read _ => True
  | .write port _ =>
    (port &&& 3).toNat ≠ 2 ∧
      ((port &&& 3).toNat = 1 → type ≠ ST506_XT_TYPE_TOSHIBA_T3200)
  | .callback host => (∀ k, host.dma k ≠ DMA_NODATA) ∧ host.read.isSome ∧ host.write

/-- Where an access can leave a command. -/
inductive Passes : HdcState → HdcState → Prop
  | send : Passes STATE_SEND_DATA STATE_SENT_DATA
  | receive : Passes STATE_RECEIVE_DATA STATE_RECEIVED_DATA
  | complete : Passes STATE_COMPLETION_BYTE STATE_IDLE

/-- What an access of the guest can do to a command: nothing, a byte, or the last byte. -/
structure Accessed (dev dev' : Hdc) : Prop where
  core : core dev' = core dev
  state : dev'.state = dev.state ∧ (Open dev → Open dev') ∨ Passes dev.state dev'.state

theorem Accessed.refl (dev : Hdc) : Accessed dev dev := ⟨rfl, .inl ⟨rfl, fun h => h⟩⟩

/-- A byte of a transfer, and its end. -/
theorem accessed_byte {dev next : Hdc} {state : HdcState} (ho : Open dev)
    (hcore : core next = core dev)
    (hnext : transfer next = (dev.state, dev.buff_pos + 1, dev.buff_cnt))
    (hp : Passes dev.state state) : Accessed dev (endOfTransfer next state) := by
  have hstate : next.state = dev.state := congrArg (·.1) hnext
  have hpos : next.buff_pos = dev.buff_pos + 1 := congrArg (·.2.1) hnext
  have hcnt : next.buff_cnt = dev.buff_cnt := congrArg (·.2.2) hnext
  unfold endOfTransfer
  split_ifs with hend
  · exact ⟨hcore, .inr hp⟩
  · refine ⟨hcore, .inl ⟨hstate, fun _ => ?_⟩⟩
    have hlt := ho.1
    have hle := ho.2
    unfold Open
    omega

theorem read_spec {dev : Hdc} (port : BitVec 16)
    (ho : dev.state = STATE_SEND_DATA → Open dev) :
    ∃ r, st506_read port dev = .ok r ∧ Accessed dev r.2 := by
  have hsame : Accessed dev (acknowledged dev) := ⟨rfl, .inl ⟨rfl, fun h => h⟩⟩
  unfold st506_read
  split
  case h_1 =>
    simp only
    split
    case h_1 hs =>
      have hp : Passes dev.state STATE_IDLE := by
        rw [show dev.state = STATE_COMPLETION_BYTE from hs]
        exact .complete
      exact ⟨_, rfl, rfl, .inr hp⟩
    case h_2 hs =>
      have hp : Passes dev.state STATE_SENT_DATA := by
        rw [show dev.state = STATE_SEND_DATA from hs]
        exact .send
      have hopen := ho hs
      obtain ⟨byte, hbyte⟩ := @takeByte_ok (acknowledged dev)
        (Nat.lt_of_lt_of_le hopen.1 hopen.2)
      rw [hbyte]
      exact ⟨_, rfl, accessed_byte hopen rfl rfl hp⟩
    case h_3 => exact ⟨_, rfl, hsame⟩
  all_goals exact ⟨_, rfl, Accessed.refl dev⟩

theorem write_spec {dev : Hdc} (port : BitVec 16) (val : Byte)
    (hop : Goes dev.type (.write port val)) (hs : dev.state ≠ STATE_RECEIVE_COMMAND)
    (ho : dev.state = STATE_RECEIVE_DATA → Open dev) :
    ∃ dev', st506_write port val dev = .ok dev' ∧ Accessed dev dev' := by
  unfold st506_write
  split
  case h_1 =>
    split
    case h_1 hno => exact absurd hno hs
    case h_2 hst =>
      have hp : Passes dev.state STATE_RECEIVED_DATA := by
        rw [hst]
        exact .receive
      have hopen := ho hst
      unfold putByte
      rw [dif_pos (Nat.lt_of_lt_of_le hopen.1 hopen.2)]
      exact ⟨_, rfl, accessed_byte hopen rfl rfl hp⟩
    case h_3 => exact ⟨_, rfl, Accessed.refl dev⟩
  case h_2 hport =>
    rw [if_neg (hop.2 hport)]
    exact ⟨_, rfl, rfl, .inl ⟨rfl, fun h => h⟩⟩
  case h_3 hport => exact absurd hport hop.1
  case h_4 =>
    refine ⟨_, rfl, ?_⟩
    split_ifs <;> exact ⟨rfl, .inl ⟨rfl, fun h => h⟩⟩

/-- An access of the guest, while a command goes on. -/
theorem access_spec {dev : Hdc} {op : Op} (hop : Goes dev.type op) (hc : op.isCallback = false)
    (hs : dev.state ≠ STATE_RECEIVE_COMMAND)
    (ho : dev.state = STATE_SEND_DATA ∨ dev.state = STATE_RECEIVE_DATA → Open dev) :
    ∃ dev', step dev op = .ok dev' ∧ Accessed dev dev' := by
  cases op with
  | callback host => cases hc
  | read port =>
    obtain ⟨r, hr, hacc⟩ := read_spec port fun h => ho (.inl h)
    refine ⟨r.2, ?_, hacc⟩
    unfold step
    simp only [hr]
    rfl
  | write port val => exact write_spec port val hop hs fun h => ho (.inr h)

/-- A transfer by DMA that is served to its end. -/
theorem sendDma_served {host : Host} (hdma : ∀ k, host.dma k ≠ DMA_NODATA) {n : Nat} (k : Nat)
    {dev : Hdc} (h : dev.buff_pos + n ≤ SECTOR_SIZE + 4) :
    ∃ r, sendDma host n k dev = .ok (r, true) ∧ core r = core dev := by
  induction n generalizing k dev with
  | zero => exact ⟨dev, rfl, rfl⟩
  | succ n ih =>
    obtain ⟨byte, hbyte⟩ := @takeByte_ok dev (by omega)
    unfold sendDma
    rw [hbyte]
    simp only [if_neg (hdma k)]
    obtain ⟨r, hr, hcore⟩ := @ih (k + 1) { dev with
      buff_pos := dev.buff_pos + 1, dma_out := dev.dma_out ++ [byte] } (by simp only; omega)
    exact ⟨r, hr, hcore⟩

theorem receiveDma_served {host : Host} (hdma : ∀ k, host.dma k ≠ DMA_NODATA) {n : Nat} (k : Nat)
    {dev : Hdc} (h : dev.buff_pos + n ≤ SECTOR_SIZE + 4) :
    ∃ r, receiveDma host n k dev = .ok (r, true) ∧ core r = core dev := by
  induction n generalizing k dev with
  | zero => exact ⟨dev, rfl, rfl⟩
  | succ n ih =>
    have hlt : dev.buff_pos < SECTOR_SIZE + 4 := by omega
    unfold receiveDma putByte
    simp only [if_neg (hdma k), dif_pos hlt]
    obtain ⟨r, hr, hcore⟩ := @ih (k + 1) { dev with
      buff := dev.buff.set dev.buff_pos (BitVec.ofInt 8 (host.dma k)) hlt
      buff_pos := dev.buff_pos + 1 } (by simp only; omega)
    exact ⟨r, hr, hcore⟩

theorem sendData_served {host : Host} (hdma : ∀ k, host.dma k ≠ DMA_NODATA) {dev : Hdc}
    (ho : Open dev) :
    ∃ r, sendData host dev = .ok r ∧ core r = core dev ∧ r.state = STATE_SENT_DATA := by
  have hlt := ho.1
  have hle := ho.2
  obtain ⟨r, hr, hcore⟩ := @sendDma_served host hdma (dev.buff_cnt - dev.buff_pos) 0 dev
    (by omega)
  unfold sendData
  rw [hr]
  exact ⟨_, rfl, hcore, rfl⟩

theorem receiveData_served {host : Host} (hdma : ∀ k, host.dma k ≠ DMA_NODATA) {dev : Hdc}
    (ho : Open dev) :
    ∃ r, receiveData host dev = .ok r ∧ core r = core dev ∧ r.state = STATE_RECEIVED_DATA := by
  have hlt := ho.1
  have hle := ho.2
  obtain ⟨r, hr, hcore⟩ := @receiveDma_served host hdma
    (dev.buff_cnt - dev.buff_pos) 0 dev (by omega)
  unfold receiveData
  rw [hr]
  exact ⟨_, rfl, hcore, rfl⟩

/-! ## A command under way -/

/-- The kind of an access as the command that makes it, the image, and the sector. -/
def Touch.sector : Touch → Byte × Byte × Nat
  | .read hdd_num addr => (CMD_READ, hdd_num, addr)
  | .write hdd_num addr _ => (CMD_WRITE, hdd_num, addr)
  | .zero hdd_num addr _ => (CMD_FORMAT_DRIVE, hdd_num, addr)

/-- The states of a read and of a write, before and after each transfer. -/
def busyState (command : Byte) : Bool → HdcState
  | false => if command = CMD_READ then STATE_SEND_DATA else STATE_RECEIVE_DATA
  | true => if command = CMD_READ then STATE_SENT_DATA else STATE_RECEIVED_DATA

section

variable (dev0 : Hdc) (drive0 : Drive)

/-- The drive after so many sectors. -/
def driveAt (k : Nat) : Drive := { drive0 with cylinder := (positionAt dev0 drive0 k).cylinder }

/-- The sectors touched when the transfer with this number is under way: a read has its sector
before, a write after it. -/
def touchedBy (k : Nat) : Nat := if dev0.command.get 0 = CMD_READ then k + 1 else k

/-- The first sectors are found, and they are what has been touched since. -/
structure Touched (j : Nat) (dev : Hdc) : Prop where
  found : ∀ i < j, FoundAt dev0 drive0 i
  touched : ∃ new, dev.touched = dev0.touched ++ new ∧
    new.map Touch.sector =
      (List.range j).map fun i => (dev0.command.get 0, drive0.hdd_num, sectorAt dev0 drive0 i)

/-- The command has been received. -/
structure Waiting (dev : Hdc) : Prop where
  state : dev.state = STATE_START_COMMAND
  type : dev.type = dev0.type
  command : dev.command = dev0.command
  cyl_off : dev.cyl_off = dev0.cyl_off
  drive : dev.drives[driveSel dev0]? = some drive0
  touched : dev.touched = dev0.touched
  completions : dev.completions = dev0.completions

/-- The controller and its drive are at the position after so many sectors. -/
structure Here (k : Nat) (dev : Hdc) : Prop where
  type : dev.type = dev0.type
  command : dev.command = dev0.command
  place : place dev = (positionAt dev0 drive0 k).place
  drive : dev.drives[driveSel dev0]? = some (driveAt dev0 drive0 k)
  completions : dev.completions = dev0.completions

/-- A transfer is under way, or is over. -/
structure Moving (k : Nat) (moved : Bool) (dev : Hdc) : Prop where
  here : Here dev0 drive0 k dev
  state : dev.state = busyState (dev0.command.get 0) moved
  ahead : moved = false → Open dev
  count : dev.count = (sectorCount dev0 : Int) - k
  more : sectorCount dev0 = 0 ∨ k < sectorCount dev0
  touched : Touched dev0 drive0 (touchedBy dev0 k) dev

/-- The command has ended, with so many sectors: all of them, or up to one that is refused. -/
structure Done (j : Nat) (c : Byte) (dev : Hdc) : Prop where
  state : dev.state = STATE_COMPLETION_BYTE ∨ dev.state = STATE_IDLE
  type : dev.type = dev0.type
  command : dev.command = dev0.command
  completions : dev.completions = dev0.completions ++ [c]
  touched : Touched dev0 drive0 j dev
  how : c &&& 0x02 = 0 ∧ j = sectorCount dev0 ∧ sectorCount dev0 ≠ 0 ∨
    c &&& 0x02 ≠ 0 ∧ ¬FoundAt dev0 drive0 j ∧ (sectorCount dev0 = 0 ∨ j < sectorCount dev0)

/-- Where a command can be after so many turns. -/
inductive At : Nat → Hdc → Prop
  | waiting {dev : Hdc} (h : Waiting dev0 drive0 dev) : At 0 dev
  | moving {k : Nat} {moved : Bool} {dev : Hdc} (h : Moving dev0 drive0 k moved dev) :
    At (2 * k + 1 + moved.toNat) dev
  | done {p j : Nat} {c : Byte} {dev : Hdc} (h : Done dev0 drive0 j c dev) : At p dev

end

section

variable {dev0 dev : Hdc} {drive0 : Drive} {k : Nat}

theorem driveSel_congr (h : dev.command = dev0.command) : driveSel dev = driveSel dev0 := by
  unfold driveSel
  rw [h]

theorem start_congr (htype : dev.type = dev0.type) (hcommand : dev.command = dev0.command)
    (hoff : dev.cyl_off = dev0.cyl_off) (drive : Drive) : start dev drive = start dev0 drive := by
  unfold start chsCylinder chsHead chsSector isSt11
  rw [htype, hcommand, hoff]

theorem withDrive_some {drive : Drive} {f : Drive → Except Fault Hdc}
    (h : dev.drives[dev.drive_sel]? = some drive) : withDrive dev f = f drive := by
  unfold withDrive
  rw [h]

/-- The drive that is put back is the drive that is found next. -/
theorem getElem?_setDrive {drive drive' : Drive} (h : dev.drives[dev.drive_sel]? = some drive) :
    (setDrive dev drive').drives[dev.drive_sel]? = some drive' := by
  obtain ⟨hlt, -⟩ := Vector.getElem?_eq_some_iff.mp h
  exact Vector.getElem?_setIfInBounds_self_of_lt hlt

theorem foundAt_iff (hplace : place dev = (positionAt dev0 drive0 k).place)
    (htype : dev.type = dev0.type) :
    Found dev.type (driveAt dev0 drive0 k) (place dev) ↔ FoundAt dev0 drive0 k := by
  rw [hplace, htype]
  exact ⟨fun ⟨hp, hphysical, hhead, hsector⟩ => ⟨hp, hphysical, hhead, hsector⟩,
    fun ⟨hp, hphysical, hhead, hsector⟩ => ⟨hp, hphysical, hhead, hsector⟩⟩

/-- The position after the next sector. -/
theorem next_sector_at (hplace : place dev = (positionAt dev0 drive0 k).place)
    (htype : dev.type = dev0.type) :
    next_sector dev (driveAt dev0 drive0 k) =
      (moveTo dev (positionAt dev0 drive0 (k + 1)), driveAt dev0 drive0 (k + 1)) := by
  have hposition : position dev (driveAt dev0 drive0 k) = positionAt dev0 drive0 k := by
    unfold position
    rw [hplace]
    rfl
  have hnext : forward dev.type (driveAt dev0 drive0 k) (positionAt dev0 drive0 k) =
      positionAt dev0 drive0 (k + 1) := by
    rw [htype]
    exact (walk_succ dev0.type drive0 (start dev0 drive0) k).symm
  rw [next_sector_eq, hposition, hnext]
  rfl

/-- An error leaves its mark in the completion byte. -/
theorem error_mark (c : Byte) : (c ||| 0x02) &&& 0x02 ≠ 0 := by
  revert c
  decide

theorem preset_mark (sel : Byte) : sel <<< 5 &&& 0x02 = 0 := by
  revert sel
  decide

/-- One more sector is touched. -/
theorem Touched.push {j : Nat} {dev' : Hdc} {t : Touch} (h : Touched dev0 drive0 j dev)
    (hf : FoundAt dev0 drive0 j) (ht : dev'.touched = dev.touched ++ [t])
    (hsector : t.sector = (dev0.command.get 0, drive0.hdd_num, sectorAt dev0 drive0 j)) :
    Touched dev0 drive0 (j + 1) dev' := by
  obtain ⟨hfound, new, hnew, hmap⟩ := h
  refine ⟨fun i hi => ?_, new ++ [t], ?_, ?_⟩
  · rcases Nat.lt_succ_iff_lt_or_eq.mp hi with hlt | rfl
    · exact hfound i hlt
    · exact hf
  · rw [ht, hnew, List.append_assoc]
  · rw [List.map_append, hmap, List.range_succ, List.map_append, List.map_singleton, hsector]
    rfl

theorem Touched.congr {j : Nat} {dev' : Hdc} (h : Touched dev0 drive0 j dev)
    (ht : dev'.touched = dev.touched) : Touched dev0 drive0 j dev' :=
  ⟨h.found, by rw [ht]; exact h.touched⟩

theorem core_eq {dev' : Hdc} (h : core dev' = core dev) :
    dev'.type = dev.type ∧ dev'.command = dev.command ∧ dev'.cyl_off = dev.cyl_off ∧
      place dev' = place dev ∧ dev'.count = dev.count ∧ dev'.drives = dev.drives ∧
      dev'.touched = dev.touched ∧ dev'.completions = dev.completions := by
  unfold core at h
  simpa only [Prod.mk.injEq] using h

theorem Here.congr {dev' : Hdc} (h : Here dev0 drive0 k dev) (hc : core dev' = core dev) :
    Here dev0 drive0 k dev' := by
  obtain ⟨htype, hcommand, -, hplace, -, hdrives, -, hcompletions⟩ := core_eq hc
  obtain ⟨h1, h2, h3, h4, h5⟩ := h
  exact ⟨htype.trans h1, hcommand.trans h2, hplace.trans h3, by rw [hdrives]; exact h4,
    hcompletions.trans h5⟩

/-- The drive of the command, in a callback. -/
theorem drive_preset {drive : Drive} (hcommand : dev.command = dev0.command)
    (h : dev.drives[driveSel dev0]? = some drive) :
    (preset dev).drives[(preset dev).drive_sel]? = some drive := by
  change dev.drives[driveSel dev]? = some drive
  rw [driveSel_congr hcommand]
  exact h

theorem preset_completion : (preset dev).compl &&& 0x02 = 0 := preset_mark _

theorem done_fails {j : Nat} {err : Byte} (htype : dev.type = dev0.type)
    (hcommand : dev.command = dev0.command) (hcompletions : dev.completions = dev0.completions)
    (ht : Touched dev0 drive0 j dev) (hf : ¬FoundAt dev0 drive0 j)
    (hmore : sectorCount dev0 = 0 ∨ j < sectorCount dev0) :
    Done dev0 drive0 j (dev.compl ||| 0x02) (fails err dev) :=
  ⟨.inl rfl, htype, hcommand, congrArg (· ++ [_]) hcompletions, ht.congr rfl,
    .inr ⟨error_mark _, hf, hmore⟩⟩

theorem done_complete (htype : dev.type = dev0.type) (hcommand : dev.command = dev0.command)
    (hcompletions : dev.completions = dev0.completions) (hcompl : dev.compl &&& 0x02 = 0)
    (h0 : sectorCount dev0 ≠ 0) (ht : Touched dev0 drive0 (sectorCount dev0) dev) :
    Done dev0 drive0 (sectorCount dev0) dev.compl (st506_complete dev) :=
  ⟨.inl rfl, htype, hcommand, congrArg (· ++ [_]) hcompletions,
    ht.congr rfl, .inl ⟨hcompl, rfl, h0⟩⟩

/-! ## The turns of a read -/

variable {host : Host}

/-- A sector is read, or refused. -/
theorem readSector_at (h : Here dev0 drive0 k dev) (hread : dev0.command.get 0 = CMD_READ)
    (hcount : dev.count = (sectorCount dev0 : Int) - k)
    (hmore : sectorCount dev0 = 0 ∨ k < sectorCount dev0) (ht : Touched dev0 drive0 k dev)
    (hhost : host.read.isSome) {cnt : Nat} (h0 : 0 < cnt) (hle : cnt ≤ SECTOR_SIZE + 4) :
    let dev' := readSector host cnt (driveAt dev0 drive0 k) dev
    Moving dev0 drive0 k false dev' ∨ ∃ c, Done dev0 drive0 k c dev' := by
  have hiff := foundAt_iff h.place h.type
  have htouched : touchedBy dev0 k = k + 1 := if_pos hread
  obtain ⟨data, hdata⟩ := Option.isSome_iff_exists.mp hhost
  unfold readSector
  by_cases hf : FoundAt dev0 drive0 k
  · rw [get_sector_found (hiff.mpr hf)]
    unfold hdd_image_read
    simp only [hdata]
    refine .inl ⟨⟨h.type, h.command, h.place, h.drive, h.completions⟩, (if_pos hread).symm,
      fun _ => ⟨h0, hle⟩, hcount, hmore, ?_⟩
    rw [htouched]
    refine ht.push hf rfl ?_
    rw [hread, h.place]
    rfl
  · obtain ⟨err, herr⟩ := get_sector_lost (fun hno => hf (hiff.mp hno))
    rw [herr]
    exact .inr ⟨_, done_fails h.type h.command h.completions (ht.congr rfl) hf hmore⟩

/-- The start of a command: the address is taken from its bytes. -/
theorem here_start (h : Waiting dev0 drive0 dev) :
    ∃ next b, get_chs (preset dev) drive0 = (next, driveAt dev0 drive0 0, b) ∧
      Here dev0 drive0 0 (setDrive next (driveAt dev0 drive0 0)) ∧
      next.count = sectorCount dev0 ∧ next.touched = dev0.touched := by
  obtain ⟨b, hchs⟩ := get_chs_eq (preset dev) drive0
  have hstart : start (preset dev) drive0 = start dev0 drive0 :=
    start_congr h.type h.command h.cyl_off drive0
  rw [hstart] at hchs
  refine ⟨_, b, hchs, ⟨h.type, h.command, rfl, ?_, h.completions⟩, ?_, h.touched⟩
  · have hdrive := drive_preset h.command h.drive
    have hput := @getElem?_setDrive (preset dev) _ (driveAt dev0 drive0 0) hdrive
    change _[driveSel dev]? = _ at hput
    rw [driveSel_congr h.command] at hput
    exact hput
  · change (((dev.command.get 4).toNat : Nat) : Int) = _
    unfold sectorCount
    rw [h.command]

/-- The next sector, with the drive that is put back. -/
theorem here_next (h : Here dev0 drive0 k dev) (hsel : dev.drive_sel = driveSel dev0) :
    Here dev0 drive0 (k + 1)
      (setDrive (moveTo dev (positionAt dev0 drive0 (k + 1))) (driveAt dev0 drive0 (k + 1))) := by
  refine ⟨h.type, h.command, rfl, ?_, h.completions⟩
  have hdrive := h.drive
  rw [← hsel] at hdrive ⊢
  exact getElem?_setDrive hdrive

theorem callback_read (hread : dev.command.get 0 = CMD_READ) :
    st506_callback host dev = read host (preset dev) := by
  unfold st506_callback
  rw [hread]
  rfl

theorem read_waiting (h : Waiting dev0 drive0 dev) (hread : dev0.command.get 0 = CMD_READ)
    (hhost : host.read.isSome) :
    ∃ dev', read host (preset dev) = .ok dev' ∧
      (Moving dev0 drive0 0 false dev' ∨ ∃ c, Done dev0 drive0 0 c dev') := by
  obtain ⟨next, b, hchs, hhere, hcount, htouched⟩ := here_start h
  have hstate : (preset dev).state = STATE_START_COMMAND := h.state
  unfold read
  simp only [hstate]
  rw [withDrive_some (drive_preset h.command h.drive), hchs]
  refine ⟨_, rfl, readSector_at hhere hread ?_ ?_ ?_ hhost (sectorBytes_pos _ _)
    (sectorBytes_le _ _)⟩
  · change next.count = _
    rw [hcount]
    omega
  · omega
  · exact ⟨nofun, [], htouched.trans (List.append_nil _).symm, rfl⟩

theorem read_moving (h : Moving dev0 drive0 k false dev) (hread : dev0.command.get 0 = CMD_READ)
    (hdma : ∀ k, host.dma k ≠ DMA_NODATA) :
    ∃ dev', read host (preset dev) = .ok dev' ∧ Moving dev0 drive0 k true dev' := by
  have hstate : (preset dev).state = STATE_SEND_DATA := h.state.trans (if_pos hread)
  obtain ⟨r, hr, hcore, hsent⟩ := @sendData_served _ hdma (preset dev) (h.ahead rfl)
  unfold read
  simp only [hstate]
  refine ⟨r, hr, h.here.congr hcore, hsent.trans (if_pos hread).symm, nofun, ?_, h.more,
    h.touched.congr ?_⟩
  · exact (core_eq hcore).2.2.2.2.1.trans h.count
  · exact (core_eq hcore).2.2.2.2.2.2.1

theorem read_moved (h : Moving dev0 drive0 k true dev) (hread : dev0.command.get 0 = CMD_READ)
    (hhost : host.read.isSome) :
    ∃ dev', read host (preset dev) = .ok dev' ∧
      (Moving dev0 drive0 (k + 1) false dev' ∨ ∃ j c, Done dev0 drive0 j c dev') := by
  have hstate : (preset dev).state = STATE_SENT_DATA := h.state.trans (if_pos hread)
  have hcount : (counted (preset dev)).count = (sectorCount dev0 : Int) - (k + 1 : Nat) := by
    change dev.count - 1 = _
    rw [h.count]
    omega
  have ht := h.touched
  rw [show touchedBy dev0 k = k + 1 from if_pos hread] at ht
  have hmore := h.more
  unfold read
  simp only [hstate]
  split_ifs with hlast
  · have hn : sectorCount dev0 = k + 1 := by omega
    rw [← hn] at ht
    exact ⟨_, rfl, .inr ⟨_, _, done_complete h.here.type h.here.command h.here.completions
      preset_completion (by omega) (ht.congr rfl)⟩⟩
  · have hdrive := drive_preset h.here.command h.here.drive
    rw [@withDrive_some (counted (preset dev)) _ _ hdrive,
      @next_sector_at dev0 (counted (preset dev)) drive0 k h.here.place h.here.type]
    have hhere : Here dev0 drive0 k (counted (preset dev)) :=
      ⟨h.here.type, h.here.command, h.here.place, h.here.drive, h.here.completions⟩
    have hnext := here_next hhere (driveSel_congr h.here.command)
    refine ⟨_, rfl, (readSector_at hnext hread hcount (by omega) (ht.congr rfl) hhost (by decide)
      (by decide)).imp_right fun hdone => ⟨k + 1, hdone⟩⟩

/-! ## The turns of a write -/

theorem callback_write (hwrite : dev.command.get 0 = CMD_WRITE) :
    st506_callback host dev = write host (preset dev) := by
  unfold st506_callback
  rw [hwrite]
  rfl

theorem not_read (hwrite : dev0.command.get 0 = CMD_WRITE) : ¬dev0.command.get 0 = CMD_READ := by
  rw [hwrite]
  decide

theorem write_waiting (h : Waiting dev0 drive0 dev) (hwrite : dev0.command.get 0 = CMD_WRITE) :
    ∃ dev', write host (preset dev) = .ok dev' ∧
      (Moving dev0 drive0 0 false dev' ∨ ∃ c, Done dev0 drive0 0 c dev') := by
  obtain ⟨next, b, hchs, hhere, hcount, htouched⟩ := here_start h
  have hstate : (preset dev).state = STATE_START_COMMAND := h.state
  have hno := not_read hwrite
  have hiff := foundAt_iff hhere.place hhere.type
  have ht : Touched dev0 drive0 0 (setDrive next (driveAt dev0 drive0 0)) :=
    ⟨nofun, [], htouched.trans (List.append_nil _).symm, rfl⟩
  unfold write
  simp only [hstate]
  rw [withDrive_some (drive_preset h.command h.drive), hchs]
  simp only
  by_cases hf : FoundAt dev0 drive0 0
  · rw [get_sector_found (hiff.mpr hf)]
    refine ⟨_, rfl, .inl ⟨⟨hhere.type, hhere.command, hhere.place, hhere.drive,
      hhere.completions⟩, (if_neg hno).symm,
      fun _ => ⟨sectorBytes_pos _ _, sectorBytes_le _ _⟩, ?_, by omega, ?_⟩⟩
    · change next.count = _
      rw [hcount]
      omega
    · rw [show touchedBy dev0 0 = 0 from if_neg hno]
      exact ht.congr rfl
  · obtain ⟨err, herr⟩ := get_sector_lost (fun hfound => hf (hiff.mp hfound))
    rw [herr]
    exact ⟨_, rfl, .inr ⟨_, done_fails hhere.type hhere.command hhere.completions (ht.congr rfl) hf
      (by omega)⟩⟩

theorem write_moving (h : Moving dev0 drive0 k false dev) (hwrite : dev0.command.get 0 = CMD_WRITE)
    (hdma : ∀ k, host.dma k ≠ DMA_NODATA) :
    ∃ dev', write host (preset dev) = .ok dev' ∧ Moving dev0 drive0 k true dev' := by
  have hno := not_read hwrite
  have hstate : (preset dev).state = STATE_RECEIVE_DATA := h.state.trans (if_neg hno)
  obtain ⟨r, hr, hcore, hreceived⟩ := @receiveData_served _ hdma (preset dev) (h.ahead rfl)
  unfold write
  simp only [hstate]
  refine ⟨r, hr, h.here.congr hcore, hreceived.trans (if_neg hno).symm, nofun, ?_, h.more,
    h.touched.congr ?_⟩
  · exact (core_eq hcore).2.2.2.2.1.trans h.count
  · exact (core_eq hcore).2.2.2.2.2.2.1

theorem write_moved (h : Moving dev0 drive0 k true dev) (hwrite : dev0.command.get 0 = CMD_WRITE)
    (hhost : host.write) :
    ∃ dev', write host (preset dev) = .ok dev' ∧
      (Moving dev0 drive0 (k + 1) false dev' ∨ ∃ j c, Done dev0 drive0 j c dev') := by
  have hno := not_read hwrite
  have hstate : (preset dev).state = STATE_RECEIVED_DATA := h.state.trans (if_neg hno)
  have hhere : Here dev0 drive0 k (preset dev) :=
    ⟨h.here.type, h.here.command, h.here.place, h.here.drive, h.here.completions⟩
  have hiff := foundAt_iff hhere.place hhere.type
  have ht := h.touched
  rw [show touchedBy dev0 k = k from if_neg hno] at ht
  have hmore := h.more
  unfold write
  simp only [hstate]
  rw [withDrive_some (drive_preset h.here.command h.here.drive)]
  by_cases hf : FoundAt dev0 drive0 k
  · rw [get_sector_found (hiff.mpr hf)]
    unfold hdd_image_write
    simp only [hhost]
    have hsector : (Touch.write drive0.hdd_num (lba (driveAt dev0 drive0 k) (place (preset dev)))
        (preset dev).buff).sector =
          (dev0.command.get 0, drive0.hdd_num, sectorAt dev0 drive0 k) := by
      rw [hwrite, hhere.place]
      rfl
    have hcount : dev.count - 1 = (sectorCount dev0 : Int) - (k + 1 : Nat) := by
      rw [h.count]
      omega
    split_ifs with hlast
    · change dev.count - 1 = 0 at hlast
      have hn : sectorCount dev0 = k + 1 := by omega
      refine ⟨_, rfl, .inr ⟨_, _, done_complete hhere.type hhere.command hhere.completions
        preset_completion (by omega) ?_⟩⟩
      rw [hn]
      exact ht.push hf rfl hsector
    · change ¬dev.count - 1 = 0 at hlast
      let wrote : Hdc :=
        { preset dev with
          touched := (preset dev).touched ++ [.write (driveAt dev0 drive0 k).hdd_num
            (lba (driveAt dev0 drive0 k) (place (preset dev))) (preset dev).buff] }
      have hmove := @next_sector_at dev0 (counted wrote) drive0 _ hhere.place hhere.type
      rw [hmove]
      have hnext := here_next hhere (driveSel_congr h.here.command)
      have hsize : 0 < SECTOR_SIZE ∧ SECTOR_SIZE ≤ SECTOR_SIZE + 4 := by decide
      refine ⟨_, rfl, .inl ⟨⟨hnext.type, hnext.command, hnext.place, hnext.drive,
        hnext.completions⟩, (if_neg hno).symm, fun _ => hsize, hcount, by omega, ?_⟩⟩
      rw [show touchedBy dev0 (k + 1) = k + 1 from if_neg hno]
      exact ht.push hf rfl hsector
  · obtain ⟨err, herr⟩ := get_sector_lost (fun hfound => hf (hiff.mp hfound))
    rw [herr]
    exact ⟨_, rfl, .inr ⟨_, _, done_fails hhere.type hhere.command hhere.completions (ht.congr rfl)
      hf hmore⟩⟩

/-! ## Turns and runs -/

/-- A step that takes a command on: a callback, or the last byte of a transfer. -/
def turn (dev : Hdc) (op : Op) (dev' : Hdc) : Nat :=
  if op.isCallback ∨ dev'.state ≠ dev.state then 1 else 0

def turns : Hdc → List Op → Nat
  | _, [] => 0
  | dev, op :: ops =>
    match step dev op with
    | .error _ => 0
    | .ok dev' => turn dev op dev' + turns dev' ops

/-- A read or a write of sectors. -/
def Transfers (dev : Hdc) : Prop := dev.command.get 0 = CMD_READ ∨ dev.command.get 0 = CMD_WRITE

theorem Done.congr {j : Nat} {c : Byte} {dev' : Hdc} (h : Done dev0 drive0 j c dev)
    (hc : core dev' = core dev)
    (hs : dev'.state = STATE_COMPLETION_BYTE ∨ dev'.state = STATE_IDLE) :
    Done dev0 drive0 j c dev' := by
  obtain ⟨htype, hcommand, -, -, -, -, htouched, hcompletions⟩ := core_eq hc
  exact ⟨hs, htype.trans h.type, hcommand.trans h.command, hcompletions.trans h.completions,
    h.touched.congr htouched, h.how⟩

/-- A callback takes a command on, by one turn. -/
theorem at_callback (ht : Transfers dev0) {p : Nat} (h : At dev0 drive0 p dev)
    (hop : Goes dev0.type (.callback host)) :
    ∃ dev', st506_callback host dev = .ok dev' ∧ At dev0 drive0 (p + 1) dev' := by
  obtain ⟨hdma, hhost, hwrote⟩ := hop
  cases h with
  | waiting h =>
    have hturn : ∃ dev', st506_callback host dev = .ok dev' ∧
        (Moving dev0 drive0 0 false dev' ∨ ∃ c, Done dev0 drive0 0 c dev') := by
      rcases ht with hread | hwrite
      · rw [callback_read (by rw [h.command]; exact hread)]
        exact read_waiting h hread hhost
      · rw [callback_write (by rw [h.command]; exact hwrite)]
        exact write_waiting h hwrite
    obtain ⟨dev', hdev', hmoving | ⟨c, hdone⟩⟩ := hturn
    · exact ⟨dev', hdev', .moving hmoving⟩
    · exact ⟨dev', hdev', .done hdone⟩
  | @moving k moved _ h =>
    cases moved with
    | false =>
      have hturn : ∃ dev', st506_callback host dev = .ok dev' ∧ Moving dev0 drive0 k true dev' := by
        rcases ht with hread | hwrite
        · rw [callback_read (by rw [h.here.command]; exact hread)]
          exact read_moving h hread hdma
        · rw [callback_write (by rw [h.here.command]; exact hwrite)]
          exact write_moving h hwrite hdma
      obtain ⟨dev', hdev', hmoving⟩ := hturn
      exact ⟨dev', hdev', .moving hmoving⟩
    | true =>
      have hturn : ∃ dev', st506_callback host dev = .ok dev' ∧
          (Moving dev0 drive0 (k + 1) false dev' ∨ ∃ j c, Done dev0 drive0 j c dev') := by
        rcases ht with hread | hwrite
        · rw [callback_read (by rw [h.here.command]; exact hread)]
          exact read_moved h hread hhost
        · rw [callback_write (by rw [h.here.command]; exact hwrite)]
          exact write_moved h hwrite hwrote
      obtain ⟨dev', hdev', hmoving | ⟨j, c, hdone⟩⟩ := hturn
      · exact ⟨dev', hdev', .moving hmoving⟩
      · exact ⟨dev', hdev', .done hdone⟩
  | done h =>
    have hturn : st506_callback host dev = .ok (preset dev) := by
      rcases ht with hread | hwrite
      · rw [callback_read (by rw [h.command]; exact hread)]
        unfold read
        rcases h.state with hs | hs <;> simp only [show (preset dev).state = _ from hs]
      · rw [callback_write (by rw [h.command]; exact hwrite)]
        unfold write
        rcases h.state with hs | hs <;> simp only [show (preset dev).state = _ from hs]
    exact ⟨_, hturn, .done (h.congr rfl h.state)⟩

theorem turn_access {op : Op} {dev' : Hdc} (hc : op.isCallback = false) :
    turn dev op dev' = if dev'.state ≠ dev.state then 1 else 0 := by
  unfold turn
  rw [hc]
  simp only [Bool.false_eq_true, false_or]

/-- A transfer passes on when its last byte comes or goes. -/
theorem passes_busy {command : Byte} {moved : Bool} {state : HdcState}
    (h : Passes (busyState command moved) state) :
    moved = false ∧ state = busyState command true := by
  unfold busyState at h ⊢
  cases moved with
  | false =>
    by_cases hread : command = CMD_READ
    · simp only [if_pos hread] at h ⊢
      cases h
      exact ⟨trivial, rfl⟩
    · simp only [if_neg hread] at h ⊢
      cases h
      exact ⟨trivial, rfl⟩
  | true =>
    by_cases hread : command = CMD_READ
    · simp only [if_pos hread] at h
      cases h
    · simp only [if_neg hread] at h
      cases h

theorem busyState_ne (command : Byte) :
    busyState command true ≠ busyState command false := by
  unfold busyState
  simp only
  split_ifs <;> decide

/-- A state of a command under way is not one of these. -/
theorem busyState_cases (command : Byte) (moved : Bool) :
    busyState command moved ≠ STATE_RECEIVE_COMMAND ∧
      (busyState command true ≠ STATE_SEND_DATA ∧ busyState command true ≠ STATE_RECEIVE_DATA) := by
  unfold busyState
  cases moved <;> simp only <;> split_ifs <;> decide

/-- An access of the guest leaves a command where it is, or ends a transfer. -/
theorem at_access {p : Nat} {op : Op} (h : At dev0 drive0 p dev) (hc : op.isCallback = false)
    (hop : Goes dev0.type op) :
    ∃ dev', step dev op = .ok dev' ∧ At dev0 drive0 (p + turn dev op dev') dev' := by
  cases h with
  | waiting h =>
    rw [← h.type] at hop
    obtain ⟨dev', hdev', hcore, hstate⟩ := access_spec hop hc (by rw [h.state]; nofun)
      (by rw [h.state]; nofun)
    have hsame : dev'.state = dev.state := by
      rcases hstate with hstate | hpasses
      · exact hstate.1
      · rw [h.state] at hpasses
        cases hpasses
    obtain ⟨htype, hcommand, hoff, -, -, hdrives, htouched, hcompletions⟩ := core_eq hcore
    refine ⟨dev', hdev', ?_⟩
    rw [turn_access hc, if_neg (not_not.mpr hsame)]
    exact .waiting ⟨hsame.trans h.state, htype.trans h.type, hcommand.trans h.command,
      hoff.trans h.cyl_off, by rw [hdrives]; exact h.drive, htouched.trans h.touched,
      hcompletions.trans h.completions⟩
  | @moving k moved _ h =>
    rw [← h.here.type] at hop
    have hcases := busyState_cases (dev0.command.get 0) moved
    obtain ⟨dev', hdev', hcore, hstate⟩ := access_spec hop hc (by rw [h.state]; exact hcases.1)
      (fun hopen => by
        cases moved with
        | false => exact h.ahead rfl
        | true =>
          rw [h.state] at hopen
          exact absurd hopen (not_or.mpr hcases.2))
    refine ⟨dev', hdev', ?_⟩
    have hcount := (core_eq hcore).2.2.2.2.1
    have htouched := (core_eq hcore).2.2.2.2.2.2.1
    rw [turn_access hc]
    rcases hstate with ⟨hsame, hopen⟩ | hpasses
    · rw [if_neg (not_not.mpr hsame)]
      exact .moving ⟨h.here.congr hcore, hsame.trans h.state, fun hm => hopen (h.ahead hm),
        hcount.trans h.count, h.more, h.touched.congr htouched⟩
    · rw [h.state] at hpasses
      obtain ⟨rfl, hnext⟩ := passes_busy hpasses
      rw [if_pos (by rw [hnext, h.state]; exact busyState_ne _)]
      exact @At.moving _ _ _ true _ ⟨h.here.congr hcore, hnext, nofun, hcount.trans h.count,
        h.more, h.touched.congr htouched⟩
  | done h =>
    rw [← h.type] at hop
    obtain ⟨dev', hdev', hcore, hstate⟩ := access_spec hop hc
      (by rcases h.state with hs | hs <;> rw [hs] <;> nofun)
      (by rcases h.state with hs | hs <;> rw [hs] <;> nofun)
    refine ⟨dev', hdev', .done (h.congr hcore ?_)⟩
    rcases hstate with ⟨hsame, -⟩ | hpasses
    · rw [hsame]
      exact h.state
    · rcases h.state with hs | hs
      · rw [hs] at hpasses
        generalize dev'.state = state at hpasses ⊢
        cases hpasses
        exact .inr rfl
      · rw [hs] at hpasses
        cases hpasses

theorem at_step (ht : Transfers dev0) {p : Nat} {op : Op} (h : At dev0 drive0 p dev)
    (hop : Goes dev0.type op) :
    ∃ dev', step dev op = .ok dev' ∧ At dev0 drive0 (p + turn dev op dev') dev' := by
  cases hc : op.isCallback with
  | false => exact at_access h hc hop
  | true =>
    cases op with
    | callback host =>
      obtain ⟨dev', hdev', hat⟩ := at_callback ht h hop
      refine ⟨dev', hdev', ?_⟩
      unfold turn
      rw [if_pos (.inl hc)]
      exact hat
    | read port => cases hc
    | write port val => cases hc

/-- A run takes a command on by so many turns, whatever else happens in between. -/
theorem at_run (ht : Transfers dev0) {p : Nat} (h : At dev0 drive0 p dev) (ops : List Op)
    (hops : ∀ op ∈ ops, Goes dev0.type op) :
    ∃ dev', run dev ops = .ok dev' ∧ At dev0 drive0 (p + turns dev ops) dev' := by
  induction ops generalizing p dev with
  | nil => exact ⟨dev, rfl, h⟩
  | cons op ops ih =>
    obtain ⟨next, hnext, hat⟩ := at_step ht h (hops op (List.mem_cons_self ..))
    obtain ⟨last, hlast, hend⟩ := ih hat fun op' hop' => hops op' (List.mem_cons_of_mem _ hop')
    refine ⟨last, ?_, ?_⟩
    · unfold run at hlast ⊢
      rw [List.foldlM_cons, hnext]
      exact hlast
    · unfold turns
      rw [hnext, ← Nat.add_assoc]
      exact hend

end

/-! ## Every run of a command -/

section

variable (dev : Hdc) (drive : Drive)

/-- The sectors that are named, each with the kind of access and the image. -/
def namedTouches : List (Byte × Byte × Nat) :=
  (named dev drive).map fun addr => (dev.command.get 0, drive.hdd_num, addr)

/-- A command with a count: the sectors that are named are touched in order, all of them when it
ends, it ends with an error just when they are not all inside, and it does end. -/
structure ExactRun (ops : List Op) (dev' : Hdc) (new : List Touch) : Prop where
  touched : new.map Touch.sector <+: namedTouches dev drive
  ended : ∀ c, dev'.completions = dev.completions ++ [c] →
    new.map Touch.sector = namedTouches dev drive ∧ (c &&& 0x02 ≠ 0 ↔ ¬AllInside dev drive)
  ends : 2 * sectorCount dev + 1 ≤ turns dev ops →
    ∃ c, dev'.completions = dev.completions ++ [c]

/-- A command without a count: it ends, and has touched no more than 256 sectors. -/
structure BriefRun (ops : List Op) (dev' : Hdc) (new : List Touch) : Prop where
  touched : new.length ≤ 256
  ends : 2 * 256 + 3 ≤ turns dev ops → ∃ c, dev'.completions = dev.completions ++ [c]

/-- Any accesses and callbacks, in any order. -/
def Exact : Prop :=
  ∀ ops : List Op, (∀ op ∈ ops, Goes dev.type op) →
    ∃ dev' new, run dev ops = .ok dev' ∧ dev'.touched = dev.touched ++ new ∧
      if sectorCount dev = 0 then BriefRun dev ops dev' new else ExactRun dev drive ops dev' new

end

section

variable {dev0 dev : Hdc} {drive0 : Drive} {p : Nat}

theorem namedTouches_eq :
    namedTouches dev0 drive0 = (List.range (named dev0 drive0).length).map fun i =>
      (dev0.command.get 0, drive0.hdd_num, firstSector dev0 drive0 + i) := by
  unfold namedTouches named
  split_ifs
  · rw [List.range'_eq_map_range, List.map_map, List.length_map, List.length_range]
    rfl
  · rfl

theorem allInside_iff (h0 : sectorCount dev0 ≠ 0) :
    AllInside dev0 drive0 ↔ (named dev0 drive0).length = sectorCount dev0 := by
  unfold AllInside named
  split_ifs with htrack
  · rw [List.length_range']
    refine ⟨fun h => by omega, fun h => ⟨htrack, by omega⟩⟩
  · exact iff_of_false (fun h => htrack h.1) fun h => h0 h.symm

theorem length_named_le : (named dev0 drive0).length ≤ sectorCount dev0 := by
  unfold named
  split_ifs
  · rw [List.length_range']
    omega
  · exact Nat.zero_le _

/-- What has been touched, wherever the command is. -/
theorem at_touched (h : At dev0 drive0 p dev) :
    ∃ j, Touched dev0 drive0 j dev ∧ (sectorCount dev0 = 0 ∨ j ≤ sectorCount dev0) := by
  cases h with
  | waiting h => exact ⟨0, ⟨nofun, [], h.touched.trans (List.append_nil _).symm, rfl⟩, by omega⟩
  | @moving k moved _ h =>
    refine ⟨_, h.touched, ?_⟩
    have hmore := h.more
    unfold touchedBy
    split_ifs <;> omega
  | @done _ j c _ h =>
    refine ⟨j, h.touched, ?_⟩
    have hhow := h.how
    omega

/-- An end that is seen is the end of the command. -/
theorem at_ended (h : At dev0 drive0 p dev) {c : Byte}
    (hc : dev.completions = dev0.completions ++ [c]) : ∃ j, Done dev0 drive0 j c dev := by
  cases h with
  | waiting h =>
    have hno := congrArg List.length (h.completions.symm.trans hc)
    rw [List.length_append, List.length_singleton] at hno
    omega
  | moving h =>
    have hno := congrArg List.length (h.here.completions.symm.trans hc)
    rw [List.length_append, List.length_singleton] at hno
    omega
  | @done _ j c' _ h =>
    have hsame := List.append_cancel_left (h.completions.symm.trans hc)
    cases hsame
    exact ⟨j, h⟩

/-- A command with a count ends after so many turns, and one that comes to an address that is
refused after so many more than it takes to get there. -/
theorem at_ends (h : At dev0 drive0 p dev)
    (hp : sectorCount dev0 ≠ 0 ∧ 2 * sectorCount dev0 + 1 ≤ p ∨
      ∃ k, ¬FoundAt dev0 drive0 k ∧ 2 * k + 3 ≤ p) :
    ∃ c, dev.completions = dev0.completions ++ [c] := by
  cases h with
  | waiting h => omega
  | @moving k moved _ h =>
    have hmore := h.more
    have hmoved := Bool.toNat_le moved
    rcases hp with hp | ⟨i, hlost, hp⟩
    · omega
    · have hle : touchedBy dev0 k ≤ i := by
        by_contra hlt
        exact hlost (h.touched.found i (by omega))
      have hk : k ≤ touchedBy dev0 k := by
        unfold touchedBy
        split_ifs <;> omega
      omega
  | @done _ j c _ h => exact ⟨c, h.completions⟩

theorem turns_callbacks {ops : List Op} (hops : ∀ op ∈ ops, op.isCallback = true) {last : Hdc}
    (h : run dev ops = .ok last) : turns dev ops = ops.length := by
  induction ops generalizing dev with
  | nil => rfl
  | cons op ops ih =>
    unfold run at h
    rw [List.foldlM_cons] at h
    cases hstep : step dev op with
    | error fault =>
      rw [hstep] at h
      cases h
    | ok next =>
      rw [hstep] at h
      have hrest := ih (fun op' hop' => hops op' (List.mem_cons_of_mem _ hop')) h
      unfold turns turn
      rw [hstep]
      simp only
      rw [if_pos (.inl (hops op (List.mem_cons_self ..))), hrest, List.length_cons, Nat.add_comm]

/-- A machine that serves everything. -/
def serving : Host := ⟨fun _ => 0, some (Vector.replicate SECTOR_SIZE 0), true⟩

theorem goes_serving (type : Nat) : Goes type (.callback serving) := ⟨fun _ => nofun, rfl, rfl⟩

theorem at_start (hstate : dev0.state = STATE_START_COMMAND)
    (hdrive : dev0.drives[driveSel dev0]? = some drive0) : At dev0 drive0 0 dev0 :=
  .waiting ⟨hstate, rfl, rfl, rfl, hdrive, rfl, rfl⟩

/-- The callbacks alone take a command to its end, if it is exact. -/
theorem exists_end (hstate : dev0.state = STATE_START_COMMAND) (ht : Transfers dev0)
    (hdrive : dev0.drives[driveSel dev0]? = some drive0) (h : Exact dev0 drive0) :
    ∃ j c dev new, Done dev0 drive0 j c dev ∧ dev.touched = dev0.touched ++ new ∧
      if sectorCount dev0 = 0 then new.length ≤ 256
      else new.map Touch.sector = namedTouches dev0 drive0 := by
  let m := if sectorCount dev0 = 0 then 2 * 256 + 3 else 2 * sectorCount dev0 + 1
  let ops := List.replicate m (Op.callback serving)
  have hall : ∀ op ∈ ops, op = .callback serving := fun op hop => List.eq_of_mem_replicate hop
  have hgoes : ∀ op ∈ ops, Goes dev0.type op := fun op hop => hall op hop ▸ goes_serving _
  obtain ⟨dev, new, hrun, hnew, hexact⟩ := h ops hgoes
  obtain ⟨dev', hrun', hat⟩ := at_run ht (at_start hstate hdrive) ops hgoes
  obtain rfl := Except.ok.inj (hrun.symm.trans hrun')
  have hturns : turns dev0 ops = m := by
    rw [turns_callbacks (fun op hop => by rw [hall op hop]; rfl) hrun, List.length_replicate]
  by_cases h0 : sectorCount dev0 = 0
  · rw [if_pos h0] at hexact
    obtain ⟨c, hc⟩ := hexact.ends (by rw [hturns]; exact (if_pos h0).ge)
    obtain ⟨j, hdone⟩ := at_ended hat hc
    refine ⟨j, c, dev, new, hdone, hnew, ?_⟩
    rw [if_pos h0]
    exact hexact.touched
  · rw [if_neg h0] at hexact
    obtain ⟨c, hc⟩ := hexact.ends (by rw [hturns]; exact (if_neg h0).ge)
    obtain ⟨j, hdone⟩ := at_ended hat hc
    refine ⟨j, c, dev, new, hdone, hnew, ?_⟩
    rw [if_neg h0]
    exact (hexact.ended c hc).1

/-- The sectors that have been touched since, from what they are in all. -/
theorem Touched.map_sector {j : Nat} {new : List Touch} (h : Touched dev0 drive0 j dev)
    (hnew : dev.touched = dev0.touched ++ new) :
    new.map Touch.sector =
      (List.range j).map fun i => (dev0.command.get 0, drive0.hdd_num, sectorAt dev0 drive0 i) := by
  obtain ⟨-, new', hnew', hmap⟩ := h
  have hsame := List.append_cancel_left (hnew.symm.trans hnew')
  rw [hsame]
  exact hmap

theorem kept_of_exact (hstate : dev0.state = STATE_START_COMMAND) (ht : Transfers dev0)
    (hdrive : dev0.drives[driveSel dev0]? = some drive0) (h : Exact dev0 drive0) :
    Kept dev0 drive0 := by
  obtain ⟨j, c, dev, new, hdone, hnew, hlast⟩ := exists_end hstate ht hdrive h
  have hmap := hdone.touched.map_sector hnew
  by_cases h0 : sectorCount dev0 = 0
  · rw [if_pos h0] at hlast
    have hlength := congrArg List.length hmap
    rw [List.length_map, List.length_map, List.length_range] at hlength
    refine (kept_iff_lost h0).mpr ⟨j, by omega, ?_⟩
    rcases hdone.how with hwell | herror
    · exact absurd h0 hwell.2.2
    · exact herror.2.1
  · rw [if_neg h0] at hlast
    rw [hlast, namedTouches_eq] at hmap
    have hlength := congrArg List.length hmap
    rw [List.length_map, List.length_map, List.length_range, List.length_range] at hlength
    rw [hlength] at hmap
    have hsectors := List.map_inj_left.mp hmap
    refine (kept_iff_found h0).mpr ⟨fun i hi => ⟨hdone.touched.found i (by omega), ?_⟩, ?_⟩
    · have hsector := hsectors i (List.mem_range.mpr (by omega))
      exact (congrArg (·.2.2) hsector).symm
    · intro hlt
      rw [hlength] at hlt ⊢
      rcases hdone.how with hwell | herror
      · omega
      · exact herror.2.1

theorem exact_of_kept (hstate : dev0.state = STATE_START_COMMAND) (ht : Transfers dev0)
    (hdrive : dev0.drives[driveSel dev0]? = some drive0) (h : Kept dev0 drive0) :
    Exact dev0 drive0 := by
  intro ops hops
  obtain ⟨dev, hrun, hat⟩ := at_run ht (at_start hstate hdrive) ops hops
  rw [Nat.zero_add] at hat
  obtain ⟨j, hj, hle⟩ := at_touched hat
  obtain ⟨new, hnew, hmap⟩ := hj.touched
  refine ⟨dev, new, hrun, hnew, ?_⟩
  by_cases h0 : sectorCount dev0 = 0
  · rw [if_pos h0]
    obtain ⟨k, hk, hlost⟩ := (kept_iff_lost h0).mp h
    have hlength := congrArg List.length hmap
    rw [List.length_map, List.length_map, List.length_range] at hlength
    have hbound : j ≤ k := by
      by_contra hlt
      exact hlost (hj.found k (by omega))
    exact ⟨by omega, fun hp => at_ends hat (.inr ⟨k, hlost, by omega⟩)⟩
  · rw [if_neg h0]
    obtain ⟨hall, hend⟩ := (kept_iff_found h0).mp h
    have hnamed := @length_named_le dev0 drive0
    -- what is found in a row cannot go past the sectors that are named
    have hbound : ∀ i, (∀ l < i, FoundAt dev0 drive0 l) → i ≤ sectorCount dev0 →
        i ≤ (named dev0 drive0).length := by
      intro i hfound hi
      by_contra hlt
      exact hend (by omega) (hfound _ (by omega))
    have hprefix : ∀ i ≤ (named dev0 drive0).length,
        (List.range i).map (fun l => (dev0.command.get 0, drive0.hdd_num, sectorAt dev0 drive0 l)) =
          (namedTouches dev0 drive0).take i := by
      intro i hi
      rw [namedTouches_eq, ← List.map_take, List.take_range, Nat.min_eq_left hi]
      refine List.map_congr_left fun l hl => ?_
      rw [(hall l (by have := List.mem_range.mp hl; omega)).2]
    have htouched := hbound j hj.found (by omega)
    refine ⟨?_, fun c hc => ?_, fun hp => at_ends hat (.inl ⟨h0, hp⟩)⟩
    · rw [hmap, hprefix j htouched]
      exact List.take_prefix _ _
    · obtain ⟨i, hdone⟩ := at_ended hat hc
      have hi := hdone.touched.map_sector hnew
      have hhow := hdone.how
      have hin := hbound i hdone.touched.found (by omega)
      have hlength : (namedTouches dev0 drive0).length = (named dev0 drive0).length :=
        List.length_map ..
      -- a command that has ended has all of the sectors that are named
      have hthere : i = (named dev0 drive0).length := by
        rcases hhow with hwell | herror
        · omega
        · by_contra hne
          exact herror.2.1 (hall i (by omega)).1
      refine ⟨?_, ?_⟩
      · rw [hi, hprefix i hin, hthere, ← hlength, List.take_length]
      · rw [allInside_iff h0, ← hthere]
        rcases hhow with hwell | herror
        · exact iff_of_false (fun hno => hno hwell.1) fun hno => hno hwell.2.1
        · exact iff_of_true herror.1 (by omega)

end

/-- A read or a write of many sectors touches the ones that it names, once each and in order,
just when the controller is kept within them. -/
theorem sectors_are_exact_while_the_end_is_not_crossed (dev : Hdc) (drive : Drive)
    (hstate : dev.state = STATE_START_COMMAND) (ht : Transfers dev)
    (hdrive : dev.drives[driveSel dev]? = some drive) : Exact dev drive ↔ Kept dev drive :=
  ⟨kept_of_exact hstate ht hdrive, exact_of_kept hstate ht hdrive⟩

/-- A drive of 306 cylinders, 4 heads and 17 sectors. -/
def smallDrive : Drive := ⟨true, 0, 0, 17, 4, 306, 17, 4, 306⟩

/-- A controller with a command that it has received. -/
def received (type : Nat) (command : Vector Byte 6) : Hdc :=
  { st506_init type ⟨0, 0⟩ (Vector.replicate MFM_NUM smallDrive) with
    state := STATE_START_COMMAND
    command := command }

theorem received_drive {type : Nat} {command : Vector Byte 6} {i : Nat} (h : i < MFM_NUM) :
    (received type command).drives[i]? = some smallDrive := by
  unfold received st506_init
  rw [Vector.getElem?_map, Vector.getElem?_replicate, if_pos h]
  rfl

/-- A read of the last twenty sectors of the drive, over the end of a track. -/
theorem the_last_sectors_are_exact :
    Exact (received 0 #v[0x08, 0x02, 0x4e, 0x31, 20, 0]) smallDrive :=
  (sectors_are_exact_while_the_end_is_not_crossed _ smallDrive rfl (.inl (by decide +kernel))
    (received_drive (by decide +kernel))).mpr (by decide +kernel)

/-- A read of two sectors from the last one on goes back to one that was not named. -/
theorem the_end_is_crossed :
    ¬Exact (received 0 #v[0x08, 0x03, 0x50, 0x31, 2, 0]) smallDrive := by
  intro h
  have hkept : Kept _ _ :=
    kept_of_exact rfl (.inl (by decide +kernel)) (received_drive (by decide +kernel)) h
  exact absurd hkept (by decide +kernel)

end blumach.hdc_st506_xt
