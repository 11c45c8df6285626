-- The commands of many sectors of the XTA controllers: which sectors of the image they read or
-- write, in DMA mode with its stalls and by the data port, and how they end.
import BluMach.HdcXtaBounds
import BluMach.Odometer

namespace blumach.hdc_xta

open HdcState odometer guarded

/-! ## What a command names -/

section

variable (dev0 : Hdc)

/-- The cylinder, the head and the sector in the device control block. -/
def startPlace : Place :=
  ⟨(dcbCylinder dev0).toNat, (dcbHead dev0).toNat, (dcbSector dev0).toNat⟩

def placeAt (k : Nat) : Place :=
  (advance (drive dev0).hpc.toNat (drive dev0).spt.toNat)^[k] (startPlace dev0)

def firstSector : Nat := linear (drive dev0).hpc.toNat (drive dev0).spt.toNat (startPlace dev0)

/-- A count of 0 means 256. -/
def sectorCount : Nat := if dev0.dcb.get 4 = 0 then 256 else (dev0.dcb.get 4).toNat

/-- The sectors of the drive. -/
def size : Nat := (drive dev0).tracks.toNat * (drive dev0).hpc.toNat * (drive dev0).spt.toNat

/-- The `k`-th sector of the command lies inside the geometry of a drive that is there. -/
def Inside (k : Nat) : Prop :=
  (drive dev0).present = true ∧
    Valid (drive dev0).hpc.toNat (drive dev0).spt.toNat (startPlace dev0) ∧
    firstSector dev0 + k < size dev0

/-- The image was touched at `k` sectors more, one after the other: written for WRITE_SECTORS, and
else read. -/
def Touched (dev : Hdc) (k : Nat) : Prop :=
  ∃ new : List Touch, dev.touched = dev0.touched ++ new ∧
    new.map Touch.addr = List.range' (firstSector dev0) k ∧
    ∀ t ∈ new, if cmd dev0 = CMD_WRITE_SECTORS then
      ∃ buff, t = .write (drive dev0).hdd_num t.addr buff
    else t = .read (drive dev0).hdd_num t.addr

/-- The completion byte of a command without error. -/
def goodByte : Byte := if drvsel dev0 then COMP_DRIVE else 0x00

/-- The command has ended: well after all its sectors, or with an error at the first one that is
outside. -/
def Ended (dev : Hdc) (k : Nat) : Prop :=
  (k = sectorCount dev0 ∧ dev.completions = dev0.completions ++ [goodByte dev0]) ∨
  (k < sectorCount dev0 ∧ ¬Inside dev0 k ∧
    dev.completions = dev0.completions ++ [goodByte dev0 ||| COMP_ERR])

end

/-! ## The way of a transfer -/

def Sector (dev0 : Hdc) : Prop :=
  cmd dev0 = CMD_READ_SECTORS ∨ cmd dev0 = CMD_READ_VERIFY ∨ cmd dev0 = CMD_WRITE_SECTORS

/-- The image can be read and written. -/
structure Works (host : Host) : Prop where
  read : ∀ addr, ∃ sector, host.read addr = some sector
  write : ∀ addr, host.write addr = true

/-- The guest keeps to the command. It uses the data port for the data only when they go by the data
port: DMA is off, and the command has data. -/
def ByMode (dev : Hdc) : Op → Prop
  | .callback host => Works host
  | .read port => port &&& 3 = 0 → dev.state = STATE_SDATA →
    dmaEnabled dev = false ∧ cmd dev ≠ CMD_READ_VERIFY
  | .write port _ => port &&& 3 = 0 ∧ (dev.state = STATE_RDATA → dmaEnabled dev = false)

/-- What the controller waits for: its timer, with data for DMA, or the data port. -/
def Useful (dev : Hdc) : Op → Prop
  | .callback host => dev.timer = true ∧ ∀ j, host.dma j ≠ DMA_NODATA
  | .read port => port &&& 3 = 0 ∧ dev.state = STATE_SDATA
  | .write port _ => port &&& 3 = 0 ∧ dev.state = STATE_RDATA

/-- The useful steps that the data of a sector take from a byte of it on: one for each byte by the
data port, and one for all by DMA, or where there is no data. -/
def dataSteps (dev : Hdc) (idx : Nat) : Nat :=
  if dmaEnabled dev = false ∧ cmd dev ≠ CMD_READ_VERIFY then SECTOR_SIZE - idx else 1

/-- And one more for the sector. -/
def sectorSteps (dev : Hdc) : Nat := dataSteps dev 0 + 1

/-- A run with so many useful steps. -/
inductive Serves : Hdc → List Op → Nat → Prop
  | nil (dev : Hdc) : Serves dev [] 0
  | idle {dev dev' op ops u} : step dev op = .ok dev' → Serves dev' ops u → Serves dev (op :: ops) u
  | useful {dev dev' op ops u} : Useful dev op → step dev op = .ok dev' → Serves dev' ops u →
    Serves dev (op :: ops) (u + 1)

/-- A machine that serves everything. -/
def serving : Host := ⟨fun _ => 0, fun _ => some (Vector.replicate SECTOR_SIZE 0), fun _ => true⟩

theorem serving_works : Works serving := ⟨fun _ => ⟨_, rfl⟩, fun _ => rfl⟩

/-! ## Addresses -/

/-- The head is at a place, and the drive as near to it as it can be. -/
structure At (dev : Hdc) (p : Place) : Prop where
  track : dev.track.toNat = p.cylinder
  head : dev.head.toNat = p.head
  sector : dev.sector.toNat = p.sector
  cur_cyl : (drive dev).cur_cyl =
    if dev.track ≥ (drive dev).tracks then (drive dev).tracks - 1 else dev.track
  wrap : (drive dev).tracks = 0 → dev.track.toNat < 1024

section

variable {dev0 dev : Hdc} {p : Place} {k : Nat}

theorem get_sector_found (h : At dev p)
    (hvalid : Valid (drive dev).hpc.toNat (drive dev).spt.toNat p)
    (hcyl : p.cylinder < (drive dev).tracks.toNat) :
    get_sector dev = (dev, some (linear (drive dev).hpc.toNat (drive dev).spt.toNat p)) := by
  obtain ⟨htrack, hhead, hsector, hcur, -⟩ := h
  obtain ⟨hh, hs⟩ := hvalid
  rw [if_neg (by rw [ge_iff_le, BitVec.le_def]; omega)] at hcur
  unfold get_sector
  rw [if_neg (not_not.mpr hcur), if_neg (by rw [ge_iff_le, BitVec.le_def]; omega),
    if_neg (by rw [ge_iff_le, BitVec.le_def]; omega), htrack, hhead, hsector]
  rfl

theorem get_sector_lost (h : At dev p)
    (hout : ¬(Valid (drive dev).hpc.toNat (drive dev).spt.toNat p ∧
      p.cylinder < (drive dev).tracks.toNat)) :
    get_sector dev = ({ dev with sense := ERR_ILLADDR }, none) := by
  obtain ⟨htrack, hhead, hsector, hcur, hwrap⟩ := h
  unfold get_sector
  split_ifs with h1 h2 h3
  · rfl
  · rfl
  · rfl
  · rw [ge_iff_le, BitVec.le_def] at h2 h3
    refine absurd ⟨⟨by omega, by omega⟩, ?_⟩ hout
    by_contra hge
    rw [not_not.mp h1, if_pos (by rw [ge_iff_le, BitVec.le_def]; omega)] at hcur
    have hnat := congrArg BitVec.toNat hcur
    rw [BitVec.toNat_sub] at hnat
    have hlt := (drive dev).tracks.isLt
    have hone : (1 : BitVec 16).toNat = 1 := rfl
    by_cases hzero : (drive dev).tracks = 0
    · have hsmall := hwrap hzero
      rw [hzero, hone] at hnat
      simp at hnat
      omega
    · have hpos : (drive dev).tracks.toNat ≠ 0 := fun h0 => hzero (BitVec.eq_of_toNat_eq h0)
      rw [hone] at hnat
      omega

theorem toNat_succ_of_lt {w : Nat} (hw : 0 < w) {x y : BitVec w} (h : x.toNat < y.toNat) :
    (x + 1).toNat = x.toNat + 1 := by
  have hy := y.isLt
  have hone : (1 : BitVec w).toNat = 1 := BitVec.toNat_one hw
  rw [BitVec.toNat_add, hone]
  exact Nat.mod_eq_of_lt (by omega)

theorem at_next (h : At dev p) (hvalid : Valid (drive dev).hpc.toNat (drive dev).spt.toNat p)
    (hcyl : p.cylinder < (drive dev).tracks.toNat) :
    At (next_sector dev) (advance (drive dev).hpc.toNat (drive dev).spt.toNat p) ∧
      drive (next_sector dev) =
        { drive dev with cur_cyl := (drive (next_sector dev)).cur_cyl } := by
  obtain ⟨htrack, hhead, hsector, hcur, -⟩ := h
  obtain ⟨hh, hs⟩ := hvalid
  have hsec := @toNat_succ_of_lt 8 (by decide) dev.sector (drive dev).spt (by omega)
  have hhd := @toNat_succ_of_lt 8 (by decide) dev.head (drive dev).hpc (by omega)
  have htr := @toNat_succ_of_lt 16 (by decide) dev.track (drive dev).tracks (by omega)
  have hne : (drive dev).tracks ≠ 0 := fun h0 => by
    rw [h0] at hcyl
    exact absurd hcyl (Nat.not_lt_zero _)
  have hold : (drive dev).cur_cyl = dev.track := by
    rw [if_neg (by rw [ge_iff_le, BitVec.le_def]; omega)] at hcur
    exact hcur
  unfold next_sector advance
  by_cases h1 : dev.sector + 1 ≥ (drive dev).spt
  · have h1' := h1
    rw [ge_iff_le, BitVec.le_def] at h1'
    rw [if_pos h1, if_neg (show ¬p.sector + 1 < (drive dev).spt.toNat by omega)]
    by_cases h2 : dev.head + 1 ≥ (drive dev).hpc
    · have h2' := h2
      rw [ge_iff_le, BitVec.le_def] at h2'
      rw [if_pos h2, if_neg (show ¬p.head + 1 < (drive dev).hpc.toNat by omega)]
      dsimp only
      have hdrive : ∀ d, drive (setDrive { dev with
          sector := 0, head := 0, track := dev.track + 1 } d) = d := fun d =>
        Function.update_self ..
      refine ⟨⟨?_, rfl, rfl, ?_, fun h0 => ?_⟩, ?_⟩
      · exact htr.trans (congrArg (· + 1) htrack)
      · rw [hdrive, hold]
        rfl
      · rw [hdrive] at h0
        exact absurd h0 hne
      · rw [hdrive]
    · have h2' := h2
      rw [ge_iff_le, BitVec.le_def] at h2'
      rw [if_neg h2, if_pos (show p.head + 1 < (drive dev).hpc.toNat by omega)]
      exact ⟨⟨htrack, hhd.trans (congrArg (· + 1) hhead), rfl, hcur, fun h0 => absurd h0 hne⟩, rfl⟩
  · have h1' := h1
    rw [ge_iff_le, BitVec.le_def] at h1'
    rw [if_neg h1, if_pos (show p.sector + 1 < (drive dev).spt.toNat by omega)]
    exact ⟨⟨htrack, hhead, hsec.trans (congrArg (· + 1) hsector), hcur,
      fun h0 => absurd h0 hne⟩, rfl⟩

/-- A sector lies inside when its place does, those before it being inside. -/
theorem inside_iff (hpresent : (drive dev0).present = true) (hbefore : ∀ j < k, Inside dev0 j) :
    Inside dev0 k ↔ Valid (drive dev0).hpc.toNat (drive dev0).spt.toNat (placeAt dev0 k) ∧
      (placeAt dev0 k).cylinder < (drive dev0).tracks.toNat := by
  unfold Inside size firstSector placeAt
  by_cases hvalid : Valid (drive dev0).hpc.toNat (drive dev0).spt.toNat (startPlace dev0)
  · have hk := valid_iterate hvalid k
    rw [← linear_lt_iff hk, linear_iterate hvalid k]
    exact ⟨fun h => ⟨hk, h.2.2⟩, fun h => ⟨hpresent, hvalid, h.2⟩⟩
  · have hzero : k = 0 := by
      by_contra hne
      exact hvalid (hbefore 0 (by omega)).2.1
    subst hzero
    exact iff_of_false (fun h => hvalid h.2.1) fun h => hvalid h.1

theorem linear_placeAt (h : Inside dev0 k) :
    linear (drive dev0).hpc.toNat (drive dev0).spt.toNat (placeAt dev0 k) =
      firstSector dev0 + k := linear_iterate h.2.1 k

theorem dcbCylinder_lt (dev : Hdc) : (dcbCylinder dev).toNat < 1024 := by
  unfold dcbCylinder
  refine BitVec.toNat_or .. |>.trans_lt ?_
  refine @Nat.or_lt_two_pow _ _ 10 ?_ ?_
  · rw [BitVec.toNat_setWidth]
    have hlt := (dev.dcb.get 3).isLt
    omega
  · rw [BitVec.toNat_shiftLeft, BitVec.toNat_setWidth, BitVec.toNat_ushiftRight]
    have hlt := (dev.dcb.get 2).isLt
    omega

/-- The seek at the start. -/
theorem at_start (dev : Hdc) : At (seekStart dev) (startPlace dev) := by
  have hdrive : ∀ d, drive { setDrive { dev with track := dcbCylinder dev } d with
      head := dcbHead dev, sector := dcbSector dev } = d := fun d => Function.update_self ..
  unfold seekStart do_seek
  refine ⟨rfl, rfl, rfl, ?_, fun _ => dcbCylinder_lt dev⟩
  rw [hdrive]
  rfl

end

/-! ## The invariant -/

/-- The `i`-th sector of the command is worked on. -/
structure Course (dev0 dev : Hdc) (i : Nat) : Prop where
  dcb : dev.dcb = dev0.dcb
  intr : dev.intr = dev0.intr
  present : (drive dev0).present = true
  geometry : drive dev = { drive dev0 with cur_cyl := (drive dev).cur_cyl }
  count : dev.count + i = sectorCount dev0
  lt : i < sectorCount dev0
  before : ∀ j < i, Inside dev0 j
  place : At dev (placeAt dev0 i)
  len : dev.buf_len = SECTOR_SIZE
  completions : dev.completions = dev0.completions

/-- The fields that the course of a command depends on are as they were. -/
structure Still (dev dev' : Hdc) : Prop where
  dcb : dev'.dcb = dev.dcb
  intr : dev'.intr = dev.intr
  drives : dev'.drives = dev.drives
  count : dev'.count = dev.count
  track : dev'.track = dev.track
  head : dev'.head = dev.head
  sector : dev'.sector = dev.sector
  len : dev'.buf_len = dev.buf_len
  completions : dev'.completions = dev.completions

/-- A sector of a command that reads: it has been read, and goes out. The timer is on unless the
guest is to read the data port. -/
structure Sending (dev0 dev : Hdc) (i : Nat) : Prop where
  course : Course dev0 dev i
  kind : cmd dev0 ≠ CMD_WRITE_SECTORS
  here : Inside dev0 i
  touched : Touched dev0 dev (i + 1)
  phase : dev.state = STATE_SDONE ∧ dev.timer = true ∨
    dev.state = STATE_SDATA ∧ dev.buf_idx < SECTOR_SIZE ∧
      (dev.timer = true ∧ (dmaEnabled dev0 = true ∨ cmd dev0 = CMD_READ_VERIFY) ∨
        dev.timer = false ∧ (dmaEnabled dev0 = false ∧ cmd dev0 ≠ CMD_READ_VERIFY) ∧
          dev.buf_ptr = some ⟨.data, 0⟩)

/-- A sector of a command that writes: it comes in, and has not been written. -/
structure Receiving (dev0 dev : Hdc) (i : Nat) : Prop where
  course : Course dev0 dev i
  kind : cmd dev0 = CMD_WRITE_SECTORS
  touched : Touched dev0 dev i
  phase : dev.state = STATE_RDONE ∧ dev.timer = true ∨
    dev.state = STATE_RDATA ∧ dev.buf_idx < SECTOR_SIZE ∧
      (dev.timer = true ∧ dmaEnabled dev0 = true ∨
        dev.timer = false ∧ dmaEnabled dev0 = false ∧ dev.buf_ptr = some ⟨.data, 0⟩ ∧
          dev.status.getLsbD 7 = true ∧ dev.status.getLsbD 0 = true)

/-- The device control block is there, and the command has not begun. -/
structure Waiting (dev0 dev : Hdc) : Prop where
  state : dev.state = STATE_IDLE
  timer : dev.timer = true
  still : Still dev0 dev
  touched : dev.touched = dev0.touched

structure Over (dev0 dev : Hdc) (k : Nat) : Prop where
  timer : dev.timer = false
  state : dev.state = STATE_COMPL ∨ dev.state = STATE_IDLE
  touched : Touched dev0 dev k
  before : ∀ j < k, Inside dev0 j
  ended : Ended dev0 dev k

/-- What holds from the start of a command on. -/
inductive Live (dev0 dev : Hdc) : Prop
  | waiting (h : Waiting dev0 dev)
  | sending (i : Nat) (h : Sending dev0 dev i)
  | receiving (i : Nat) (h : Receiving dev0 dev i)
  | ended (k : Nat) (h : Over dev0 dev k)

section

variable {dev0 dev dev' : Hdc} {i k : Nat} {host : Host}

theorem Still.drive (h : Still dev dev') : drive dev' = drive dev := by
  unfold hdc_xta.drive drvsel
  rw [h.drives, h.dcb]

theorem Course.still (h : Course dev0 dev i) (hs : Still dev dev') : Course dev0 dev' i := by
  obtain ⟨hdcb, hintr, hpresent, hgeo, hcount, hlt, hbefore, ⟨h1, h2, h3, h4, h5⟩, hlen,
    hcompl⟩ := h
  refine ⟨hs.dcb.trans hdcb, hs.intr.trans hintr, hpresent, ?_, ?_, hlt, hbefore,
    ⟨?_, ?_, ?_, ?_, ?_⟩, hs.len.trans hlen, hs.completions.trans hcompl⟩
  · rw [hs.drive]
    exact hgeo
  · rw [hs.count]
    exact hcount
  · rw [hs.track]
    exact h1
  · rw [hs.head]
    exact h2
  · rw [hs.sector]
    exact h3
  · rw [hs.drive, hs.track]
    exact h4
  · rw [hs.drive, hs.track]
    exact h5

theorem Course.cmd (h : Course dev0 dev i) : cmd dev = cmd dev0 := by
  unfold hdc_xta.cmd
  rw [h.dcb]

theorem Course.dma (h : Course dev0 dev i) : dmaEnabled dev = dmaEnabled dev0 := by
  unfold dmaEnabled
  rw [h.intr]

theorem Course.tracks (h : Course dev0 dev i) : (drive dev).tracks = (drive dev0).tracks := by
  rw [h.geometry]

theorem Course.hpc (h : Course dev0 dev i) : (drive dev).hpc = (drive dev0).hpc := by
  rw [h.geometry]

theorem Course.spt (h : Course dev0 dev i) : (drive dev).spt = (drive dev0).spt := by
  rw [h.geometry]

theorem Course.hdd_num (h : Course dev0 dev i) : (drive dev).hdd_num = (drive dev0).hdd_num := by
  rw [h.geometry]

theorem Course.is_present (h : Course dev0 dev i) : ¬(drive dev).present = false := by
  rw [h.geometry]
  exact Bool.not_eq_false _ ▸ h.present

/-! ## Sectors that are touched -/

theorem touched_none (h : dev.touched = dev0.touched) : Touched dev0 dev 0 :=
  ⟨[], h.trans (List.append_nil _).symm, rfl, fun _ hno => absurd hno List.not_mem_nil⟩

theorem Touched.snoc {t : Touch} (h : Touched dev0 dev i) (ht : dev'.touched = dev.touched ++ [t])
    (haddr : t.addr = firstSector dev0 + i)
    (hkind : if cmd dev0 = CMD_WRITE_SECTORS then
        ∃ buff, t = .write (drive dev0).hdd_num t.addr buff
      else t = .read (drive dev0).hdd_num t.addr) : Touched dev0 dev' (i + 1) := by
  obtain ⟨new, hnew, hrange, hall⟩ := h
  refine ⟨new ++ [t], ?_, ?_, fun u hu => ?_⟩
  · rw [ht, hnew, List.append_assoc]
  · rw [List.map_append, hrange, List.map_singleton, haddr, List.range'_1_concat]
  · rcases List.mem_append.mp hu with hold | hnew
    · exact hall u hold
    · rw [List.mem_singleton.mp hnew]
      exact hkind

/-- The sector of the course is found just when it lies inside. -/
theorem Course.found (h : Course dev0 dev i) (hin : Inside dev0 i) :
    get_sector dev = (dev, some (firstSector dev0 + i)) := by
  obtain ⟨hvalid, hcyl⟩ := (inside_iff h.present h.before).mp hin
  have hget := @get_sector_found dev _ h.place (by rw [h.hpc, h.spt]; exact hvalid)
    (by rw [h.tracks]; exact hcyl)
  rw [hget, h.hpc, h.spt, linear_placeAt hin]

theorem Course.lost (h : Course dev0 dev i) (hout : ¬Inside dev0 i) :
    get_sector dev = ({ dev with sense := ERR_ILLADDR }, none) := by
  refine get_sector_lost h.place fun hin => hout ((inside_iff h.present h.before).mpr ?_)
  rw [h.hpc, h.spt, h.tracks] at hin
  exact hin

/-- On to the next sector. -/
theorem Course.next (h : Course dev0 dev i) (hin : Inside dev0 i)
    (hmore : i + 1 < sectorCount dev0) :
    Course dev0 (next_sector { dev with buf_idx := 0, count := dev.count - 1 }) (i + 1) := by
  obtain ⟨hvalid, hcyl⟩ := (inside_iff h.present h.before).mp hin
  have hmoved := @at_next { dev with buf_idx := 0, count := dev.count - 1 } _
    ⟨h.place.track, h.place.head, h.place.sector, h.place.cur_cyl, h.place.wrap⟩
    (show Valid (drive dev).hpc.toNat (drive dev).spt.toNat _ by
      rw [h.hpc, h.spt]
      exact hvalid)
    (show _ < (drive dev).tracks.toNat by
      rw [h.tracks]
      exact hcyl)
  have hsame := same_next_sector { dev with buf_idx := 0, count := dev.count - 1 }
  obtain ⟨hat, hdrive⟩ := hmoved
  have hkept : (next_sector { dev with buf_idx := 0, count := dev.count - 1 }).intr = dev.intr ∧
      (next_sector { dev with buf_idx := 0, count := dev.count - 1 }).count = dev.count - 1 ∧
      (next_sector { dev with buf_idx := 0, count := dev.count - 1 }).completions =
        dev.completions := by
    unfold next_sector
    dsimp only
    split_ifs <;> exact ⟨rfl, rfl, rfl⟩
  obtain ⟨hintr, hcount, hcompl⟩ := hkept
  refine ⟨hsame.dcb.trans h.dcb, hintr.trans h.intr, h.present, ?_, ?_, hmore, fun j hj => ?_, ?_,
    hsame.buf_len.trans h.len, hcompl.trans h.completions⟩
  · rw [hdrive, show drive { dev with buf_idx := 0, count := dev.count - 1 } = drive dev from rfl,
      h.geometry]
  · have hold := h.count
    rw [hcount]
    push_cast
    omega
  · rcases Nat.lt_succ_iff_lt_or_eq.mp hj with hlt | rfl
    · exact h.before j hlt
    · exact hin
  · unfold placeAt
    rw [Function.iterate_succ_apply', ← h.hpc, ← h.spt]
    have hplace : placeAt dev0 i =
        (advance (drive dev).hpc.toNat (drive dev).spt.toNat)^[i] (startPlace dev0) := by
      rw [h.hpc, h.spt]
      rfl
    rw [← hplace]
    exact hat

/-! ## What is left to do -/

theorem sector_pos : 0 < SECTOR_SIZE := by decide

/-- The useful steps that a command has left, at most. -/
def left (dev : Hdc) : Nat :=
  match dev.state with
  | STATE_IDLE => if dev.timer then sectorCount dev * sectorSteps dev + 1 else 0
  | STATE_SDATA | STATE_RDATA =>
    (dev.count.toNat - 1) * sectorSteps dev + dataSteps dev dev.buf_idx + 1
  | STATE_SDONE | STATE_RDONE => (dev.count.toNat - 1) * sectorSteps dev + 1
  | _ => 0

theorem dataSteps_port (hoff : dmaEnabled dev = false) (hcmd : cmd dev ≠ CMD_READ_VERIFY)
    (idx : Nat) : dataSteps dev idx = SECTOR_SIZE - idx := if_pos ⟨hoff, hcmd⟩

theorem dataSteps_dma (h : dmaEnabled dev = true ∨ cmd dev = CMD_READ_VERIFY) (idx : Nat) :
    dataSteps dev idx = 1 := by
  refine if_neg fun hport => ?_
  rcases h with h | h
  · exact Bool.noConfusion (hport.1.symm.trans h)
  · exact hport.2 h

theorem Course.dataSteps (h : Course dev0 dev i) (idx : Nat) :
    dataSteps dev idx = dataSteps dev0 idx := by
  unfold hdc_xta.dataSteps
  rw [h.dma, h.cmd]

theorem Course.sectorSteps (h : Course dev0 dev i) : sectorSteps dev = sectorSteps dev0 := by
  unfold hdc_xta.sectorSteps
  rw [h.dataSteps]

theorem left_data (hc : Course dev0 dev i) (h : dev.state = STATE_SDATA ∨ dev.state = STATE_RDATA) :
    left dev =
      (dev.count.toNat - 1) * sectorSteps dev0 + dataSteps dev0 dev.buf_idx + 1 := by
  rw [← hc.sectorSteps, ← hc.dataSteps]
  unfold left
  rcases h with h | h <;> rw [h]

theorem left_done (hc : Course dev0 dev i) (h : dev.state = STATE_SDONE ∨ dev.state = STATE_RDONE) :
    left dev = (dev.count.toNat - 1) * sectorSteps dev0 + 1 := by
  rw [← hc.sectorSteps]
  unfold left
  rcases h with h | h <;> rw [h]

theorem Over.left (h : Over dev0 dev k) : left dev = 0 := by
  unfold hdc_xta.left
  rcases h.state with hs | hs <;> rw [hs]
  dsimp only
  rw [h.timer]
  rfl

/-- A buffer from its start on. -/
theorem left_start (hc : Course dev0 dev i)
    (h : dev.state = STATE_SDATA ∨ dev.state = STATE_RDATA) (hidx : dev.buf_idx = 0)
    (hcount : 0 < dev.count) : left dev = dev.count.toNat * sectorSteps dev0 := by
  obtain ⟨n, hn⟩ : ∃ n, dev.count.toNat = n + 1 := ⟨dev.count.toNat - 1, by omega⟩
  rw [left_data hc h, hidx, hn, Nat.add_sub_cancel, Nat.succ_mul]
  rfl

/-! ## The ends of a command -/

theorem over_good (hs : dev.timer = false) (htouched : Touched dev0 dev k)
    (hbefore : ∀ j < k, Inside dev0 j) (hk : k = sectorCount dev0)
    (hcompl : dev.completions = dev0.completions) (hcomp : dev.comp = goodByte dev0) :
    Over dev0 (set_intr dev) k := by
  refine ⟨hs, Or.inl rfl, htouched, hbefore, Or.inl ⟨hk, ?_⟩⟩
  unfold set_intr
  rw [← hcompl, ← hcomp]

theorem over_failed (hs : dev.timer = false) (htouched : Touched dev0 dev k)
    (hbefore : ∀ j < k, Inside dev0 j) (hk : k < sectorCount dev0) (hout : ¬Inside dev0 k)
    (hcompl : dev.completions = dev0.completions) (hcomp : dev.comp = goodByte dev0) :
    Over dev0 (failed dev) k := by
  refine ⟨hs, Or.inl rfl, htouched, hbefore, Or.inr ⟨hk, hout, ?_⟩⟩
  unfold failed set_intr
  rw [← hcompl, ← hcomp]

/-! ## The starts of sectors -/

/-- A callback works on the `i`-th sector, from its start on. -/
structure Before (dev0 dev : Hdc) (i : Nat) : Prop where
  course : Course dev0 dev i
  touched : Touched dev0 dev i
  timer : dev.timer = false
  comp : dev.comp = goodByte dev0

theorem Before.pos (h : Before dev0 dev i) : 0 < dev.count := by
  have hcount := h.course.count
  have hlt := h.course.lt
  omega

theorem image_read_works (hw : Works host) (addr : Nat) (dev : Hdc) :
    ∃ buf, hdd_image_read host addr dev = ({ dev with
      touched := dev.touched ++ [.read (drive dev).hdd_num addr], sector_buf := buf }, true) := by
  obtain ⟨sector, hsector⟩ := hw.read addr
  unfold hdd_image_read
  dsimp only
  rw [hsector]
  exact ⟨_, rfl⟩

theorem image_write_works (hw : Works host) (addr : Nat) (dev : Hdc) :
    ∃ u, hdd_image_write host addr dev = (u, true) ∧ Still dev u ∧
      u.touched = dev.touched ++ [.write (drive dev).hdd_num addr dev.sector_buf] ∧
      u.timer = dev.timer ∧ u.comp = dev.comp ∧ u.status = dev.status := by
  refine ⟨{ dev with
    touched := dev.touched ++ [.write (drive dev).hdd_num addr dev.sector_buf] }, ?_,
    ⟨rfl, rfl, rfl, rfl, rfl, rfl, rfl, rfl, rfl⟩, rfl, rfl, rfl, rfl⟩
  unfold hdd_image_write
  rw [hw.write]

theorem still_offers (dev : Hdc) : Still dev (offers dev) := by
  unfold offers
  split_ifs <;> exact ⟨rfl, rfl, rfl, rfl, rfl, rfl, rfl, rfl, rfl⟩

theorem still_awaits (dev : Hdc) : Still dev (awaits dev) := by
  unfold awaits
  split_ifs <;> exact ⟨rfl, rfl, rfl, rfl, rfl, rfl, rfl, rfl, rfl⟩

/-- The status as it is while DMA is made ready. -/
theorem dmaReady_eq (dev : Hdc) : ∃ status,
    (if dmaEnabled dev then dmaReady dev else dev) = { dev with status := status } ∧
      (dmaEnabled dev = false → status = dev.status) := by
  unfold dmaReady
  split_ifs with hdma htype
  · exact ⟨_, rfl, fun hno => absurd (hdma.symm.trans hno) nofun⟩
  · exact ⟨_, rfl, fun _ => rfl⟩
  · exact ⟨_, rfl, fun _ => rfl⟩

/-- The phase that `offers` begins. -/
theorem offers_phase (hs : dev.timer = false) :
    dmaEnabled dev = true ∧ (offers dev).timer = true ∨
      dmaEnabled dev = false ∧ (offers dev).timer = false ∧
        (offers dev).buf_ptr = some ⟨.data, 0⟩ := by
  unfold offers
  split_ifs with hdma
  · exact Or.inl ⟨hdma, rfl⟩
  · exact Or.inr ⟨Bool.eq_false_of_not_eq_true hdma, hs, rfl⟩

theorem offers_state (dev : Hdc) : (offers dev).state = dev.state ∧
    (offers dev).buf_idx = dev.buf_idx ∧ (offers dev).touched = dev.touched := by
  unfold offers
  split_ifs <;> exact ⟨rfl, rfl, rfl⟩

theorem awaits_state (dev : Hdc) : (awaits dev).state = dev.state ∧
    (awaits dev).buf_idx = dev.buf_idx ∧ (awaits dev).touched = dev.touched := by
  unfold awaits
  split_ifs <;> exact ⟨rfl, rfl, rfl⟩

/-- `do_send` reads the sector, if it lies inside. -/
theorem live_doSend (hw : Works host) (h : Before dev0 dev i) (no_data : Bool)
    (hkind : cmd dev0 ≠ CMD_WRITE_SECTORS) (hcmd : no_data = true ↔ cmd dev0 = CMD_READ_VERIFY) :
    Live dev0 (doSend host no_data dev) ∧
      left (doSend host no_data dev) ≤ dev.count.toNat * sectorSteps dev0 := by
  unfold doSend
  by_cases hin : Inside dev0 i
  · rw [h.course.found hin]
    dsimp only
    obtain ⟨buf, hread⟩ := image_read_works hw (firstSector dev0 + i) dev
    rw [hread]
    dsimp only
    have hpos := h.pos
    have htouched : ∀ t : Hdc, t.touched = dev.touched ++
        [.read (drive dev).hdd_num (firstSector dev0 + i)] → Touched dev0 t (i + 1) :=
          fun t ht => by
      refine h.touched.snoc ht rfl ?_
      rw [if_neg hkind, h.course.hdd_num]
      rfl
    by_cases hno : no_data = true
    · rw [if_pos hno]
      have hstill : Still dev { dev with
          touched := dev.touched ++ [.read (drive dev).hdd_num (firstSector dev0 + i)]
          sector_buf := buf
          state := STATE_SDATA
          buf_idx := 0
          timer := true } := ⟨rfl, rfl, rfl, rfl, rfl, rfl, rfl, rfl, rfl⟩
      refine ⟨.sending i ⟨h.course.still hstill, hkind, hin,
        htouched _ rfl, Or.inr ⟨rfl, sector_pos, Or.inl ⟨rfl, Or.inr (hcmd.mp hno)⟩⟩⟩, ?_⟩
      exact Nat.le_of_eq (left_start (h.course.still hstill) (Or.inl rfl) rfl hpos)
    · rw [if_neg hno]
      obtain ⟨status, hready, -⟩ := dmaReady_eq { dev with
        touched := dev.touched ++ [.read (drive dev).hdd_num (firstSector dev0 + i)]
        sector_buf := buf
        state := STATE_SDATA
        buf_idx := 0 }
      rw [hready]
      generalize hu : ({ dev with
        touched := dev.touched ++ [.read (drive dev).hdd_num (firstSector dev0 + i)]
        sector_buf := buf
        state := STATE_SDATA
        buf_idx := 0
        status := status } : Hdc) = u
      have hstill : Still dev u := by
        rw [← hu]
        exact ⟨rfl, rfl, rfl, rfl, rfl, rfl, rfl, rfl, rfl⟩
      have hcourse := h.course.still hstill
      obtain ⟨hstate, hidx, htouch⟩ := offers_state u
      have htimer : u.timer = false := by
        rw [← hu]
        exact h.timer
      have hsdata : u.state = STATE_SDATA := by rw [← hu]
      have hzero : u.buf_idx = 0 := by rw [← hu]
      refine ⟨.sending i ⟨hcourse.still (still_offers u), hkind, hin, htouched _ ?_, Or.inr
        ⟨hstate.trans hsdata, ?_, ?_⟩⟩, ?_⟩
      · rw [htouch, ← hu]
      · rw [hidx, hzero]
        exact sector_pos
      · rw [← hcourse.dma]
        rcases offers_phase htimer with ⟨h1, h2⟩ | ⟨h1, h2, h3⟩
        · exact Or.inl ⟨h2, Or.inl h1⟩
        · exact Or.inr ⟨h2, ⟨h1, fun hv => hno (hcmd.mpr hv)⟩, h3⟩
      · have hcount := ((still_offers u).count).trans hstill.count
        rw [left_start (hcourse.still (still_offers u)) (Or.inl (hstate.trans hsdata))
          (hidx.trans hzero) (by rw [hcount]; exact hpos), hcount]
  · rw [h.course.lost hin]
    have hover : Over dev0 (failed { dev with sense := ERR_ILLADDR }) i :=
      over_failed h.timer h.touched h.course.before h.course.lt hin h.course.completions h.comp
    exact ⟨.ended i hover, by rw [hover.left]; exact Nat.zero_le _⟩

theorem isSet_dcb (x : Byte) : isSet (x &&& STAT_DCB) = x.getLsbD 7 := by
  revert x
  decide

theorem isSet_req (x : Byte) : isSet (x &&& STAT_REQ) = x.getLsbD 0 := by
  revert x
  decide

/-- The phase that `awaits` begins. -/
theorem awaits_phase (hs : dev.timer = false) (hdcb : dev.status.getLsbD 7 = true) :
    (awaits dev).timer = true ∧ dmaEnabled dev = true ∨
      (awaits dev).timer = false ∧ dmaEnabled dev = false ∧
        (awaits dev).buf_ptr = some ⟨.data, 0⟩ ∧
        (awaits dev).status.getLsbD 7 = true ∧ (awaits dev).status.getLsbD 0 = true := by
  unfold awaits
  split_ifs with hdma
  · exact Or.inl ⟨rfl, hdma⟩
  · refine Or.inr ⟨hs, Bool.eq_false_of_not_eq_true hdma, rfl, ?_, ?_⟩
    · exact (BitVec.getLsbD_or ..).trans (by rw [hdcb]; rfl)
    · exact (BitVec.getLsbD_or ..).trans (Bool.or_true _)

/-- `do_recv` waits for the sector. -/
theorem live_doRecv (h : Before dev0 dev i) (hkind : cmd dev0 = CMD_WRITE_SECTORS)
    (hdcb : dev.status.getLsbD 7 = true) :
    Live dev0 (doRecv dev) ∧ left (doRecv dev) ≤ dev.count.toNat * sectorSteps dev0 := by
  unfold doRecv
  dsimp only
  have hpos := h.pos
  obtain ⟨status, hready, hsame⟩ := dmaReady_eq { dev with state := STATE_RDATA, buf_idx := 0 }
  rw [hready]
  generalize hu : ({ dev with
    state := STATE_RDATA, buf_idx := 0, status := status } : Hdc) = u
  have hstill : Still dev u := by
    rw [← hu]
    exact ⟨rfl, rfl, rfl, rfl, rfl, rfl, rfl, rfl, rfl⟩
  have hcourse := h.course.still hstill
  obtain ⟨hstate, hidx, htouch⟩ := awaits_state u
  have htimer : u.timer = false := by
    rw [← hu]
    exact h.timer
  have hrdata : u.state = STATE_RDATA := by rw [← hu]
  have hzero : u.buf_idx = 0 := by rw [← hu]
  refine ⟨.receiving i ⟨hcourse.still (still_awaits u), hkind, ?_, Or.inr
    ⟨hstate.trans hrdata, ?_, ?_⟩⟩, ?_⟩
  · unfold Touched
    rw [htouch, ← hu]
    exact h.touched
  · rw [hidx, hzero]
    exact sector_pos
  · rw [← hcourse.dma]
    by_cases hdma : dmaEnabled u = true
    · refine Or.inl ⟨?_, hdma⟩
      unfold awaits
      rw [if_pos hdma]
    · refine awaits_phase htimer ?_
      have hoff : dmaEnabled dev = false := by
        rw [h.course.dma, ← hcourse.dma]
        exact Bool.eq_false_of_not_eq_true hdma
      rw [← hu, hsame hoff]
      exact hdcb
  · have hcount := ((still_awaits u).count).trans hstill.count
    rw [left_start (hcourse.still (still_awaits u)) (Or.inr (hstate.trans hrdata))
      (hidx.trans hzero) (by rw [hcount]; exact hpos), hcount]

/-! ## The callback -/

/-- What the callback makes of the state before it runs the command. -/
def called (dev : Hdc) : Hdc :=
  { dev with
    timer := false
    comp := if drvsel dev then COMP_DRIVE else 0x00
    status := dev.status ||| STAT_DCB }

theorem called_dcb (dev : Hdc) : (called dev).status.getLsbD 7 = true :=
  (BitVec.getLsbD_or ..).trans (Bool.or_true _)

theorem callback_eq (ht : dev.timer = true) :
    step dev (.callback host) = runCommand host (called dev) := by
  unfold step
  dsimp only
  rw [if_pos ht]
  rfl

theorem run_read (h : cmd dev = CMD_READ_SECTORS) :
    runCommand host dev = cmd_read_sectors host false dev := by
  unfold runCommand
  rw [h]
  rfl

theorem run_verify (h : cmd dev = CMD_READ_VERIFY) :
    runCommand host dev = cmd_read_sectors host true dev := by
  unfold runCommand
  rw [h]
  rfl

theorem run_write (h : cmd dev = CMD_WRITE_SECTORS) :
    runCommand host dev = cmd_write_sectors host dev := by
  unfold runCommand
  rw [h]
  rfl

/-- A command that reads is one handler, with data or without. -/
theorem run_reads (hsector : Sector dev) (hkind : cmd dev ≠ CMD_WRITE_SECTORS) :
    ∃ no_data : Bool, runCommand host dev = cmd_read_sectors host no_data dev ∧
      (no_data = true ↔ cmd dev = CMD_READ_VERIFY) := by
  rcases hsector with h | h | h
  · exact ⟨false, run_read h, iff_of_false nofun (by rw [h]; decide)⟩
  · exact ⟨true, run_verify h, iff_of_true rfl h⟩
  · exact absurd h hkind

theorem still_called (dev : Hdc) : Still dev (called dev) :=
  ⟨rfl, rfl, rfl, rfl, rfl, rfl, rfl, rfl, rfl⟩

theorem Course.drvsel (h : Course dev0 dev i) : drvsel dev = drvsel dev0 := by
  unfold hdc_xta.drvsel
  rw [h.dcb]

theorem comp_called (h : Course dev0 dev i) : (called dev).comp = goodByte dev0 := by
  unfold called goodByte
  rw [← h.drvsel]

/-! ## Steps -/

/-- A step of a command. It leaves no more to do than before, and less when it is useful. -/
structure Advances (dev0 dev : Hdc) (op : Op) (dev' : Hdc) : Prop where
  live : Live dev0 dev'
  le : left dev' ≤ left dev
  lt : Useful dev op → left dev' < left dev

/-- The step is made. -/
def Goes (dev0 dev : Hdc) (op : Op) : Prop :=
  ∃ dev', step dev op = .ok dev' ∧ Advances dev0 dev op dev'

theorem goes_of_lt {op : Op} (hstep : step dev op = .ok dev') (hlive : Live dev0 dev')
    (hlt : left dev' < left dev) : Goes dev0 dev op :=
  ⟨dev', hstep, hlive, Nat.le_of_lt hlt, fun _ => hlt⟩

theorem next_sector_rest (dev : Hdc) : (next_sector dev).touched = dev.touched ∧
    (next_sector dev).timer = dev.timer ∧ (next_sector dev).comp = dev.comp ∧
    (next_sector dev).status = dev.status ∧ (next_sector dev).count = dev.count := by
  unfold next_sector
  dsimp only
  split_ifs <;> exact ⟨rfl, rfl, rfl, rfl, rfl⟩

/-- The start of a command on a drive that is there. -/
theorem before_start (h : Waiting dev0 dev) (hpresent : (drive dev0).present = true) :
    Before dev0 (startCount (called dev)) 0 := by
  have hstill : Still dev0 (called dev) := by
    obtain ⟨h1, h2, h3, h4, h5, h6, h7, h8, h9⟩ := h.still
    exact ⟨h1, h2, h3, h4, h5, h6, h7, h8, h9⟩
  have hdcb := hstill.dcb
  have hsel : drvsel (called dev) = drvsel dev0 := by
    unfold drvsel
    rw [hdcb]
  have hplace : startPlace (called dev) = startPlace dev0 := by
    unfold startPlace dcbCylinder dcbHead dcbSector
    rw [hdcb]
  have hat := at_start (called dev)
  rw [hplace] at hat
  obtain ⟨cur_cyl, hdrive⟩ : ∃ cur_cyl, drive (startCount (called dev)) =
      { drive (called dev) with cur_cyl := cur_cyl } := ⟨_, Function.update_self ..⟩
  refine ⟨⟨hdcb, hstill.intr, hpresent, ?_, ?_, ?_, nofun,
    ⟨hat.track, hat.head, hat.sector, hat.cur_cyl, hat.wrap⟩, rfl, hstill.completions⟩,
    touched_none h.touched, rfl, ?_⟩
  · rw [hdrive, hstill.drive]
  · unfold startCount sectorCount
    dsimp only
    rw [hdcb]
    by_cases h0 : dev0.dcb.get 4 = 0
    · rw [h0]
      rfl
    · have hne : ((dev0.dcb.get 4).toNat : Int) ≠ 0 := fun hz =>
        h0 (BitVec.eq_of_toNat_eq (Int.natCast_eq_zero.mp hz))
      rw [if_neg hne, if_neg h0]
      rfl
  · unfold sectorCount
    split_ifs with h0
    · decide
    · exact Nat.pos_of_ne_zero fun hz => h0 (BitVec.eq_of_toNat_eq hz)
  · change (if drvsel (called dev) then COMP_DRIVE else 0x00) = _
    rw [hsel]
    rfl

theorem Waiting.sector (h : Waiting dev0 dev) (hsector : Sector dev0) : Sector (called dev) := by
  unfold Sector cmd
  rw [show (called dev).dcb = dev0.dcb from h.still.dcb]
  exact hsector

/-- The callback that begins the command. -/
theorem goes_start (hsector : Sector dev0) (h : Waiting dev0 dev) (hw : Works host) :
    Goes dev0 dev (.callback host) := by
  have hcmd : cmd (called dev) = cmd dev0 := by
    unfold cmd
    rw [show (called dev).dcb = dev0.dcb from h.still.dcb]
  have hleft : left dev = sectorCount dev0 * sectorSteps dev0 + 1 := by
    unfold left sectorCount sectorSteps dataSteps dmaEnabled cmd
    rw [h.state]
    dsimp only
    rw [h.timer, h.still.dcb, h.still.intr]
    rfl
  have hdrive : drive (called dev) = drive dev0 := h.still.drive
  have hstate : (called dev).state = STATE_IDLE := h.state
  have hstep := @callback_eq dev host h.timer
  by_cases hpresent : (drive dev0).present = true
  · have hbefore := before_start h hpresent
    have hthere : ¬(drive (called dev)).present = false := by
      rw [hdrive, hpresent]
      nofun
    have hcount : (startCount (called dev)).count.toNat = sectorCount dev0 := by
      have hc := hbefore.course.count
      omega
    by_cases hkind : cmd dev0 = CMD_WRITE_SECTORS
    · have hdcb : (startCount (called dev)).status.getLsbD 7 = true := called_dcb dev
      obtain ⟨hlive, hle⟩ := live_doRecv hbefore hkind hdcb
      rw [hcount] at hle
      refine @goes_of_lt dev0 dev (doRecv (startCount (called dev))) _ ?_ hlive (by omega)
      rw [hstep, run_write (hcmd.trans hkind)]
      unfold cmd_write_sectors
      rw [if_neg hthere, hstate]
    · obtain ⟨no_data, hrun, hiff⟩ := @run_reads (called dev) host (h.sector hsector)
        (by rw [hcmd]; exact hkind)
      rw [hcmd] at hiff
      obtain ⟨hlive, hle⟩ := live_doSend hw hbefore no_data hkind hiff
      rw [hcount] at hle
      refine @goes_of_lt dev0 dev (doSend host no_data (startCount (called dev))) _ ?_ hlive
        (by omega)
      rw [hstep, hrun]
      unfold cmd_read_sectors
      rw [if_neg hthere, hstate]
  · have hgone : (drive (called dev)).present = false := by
      rw [hdrive]
      exact Bool.eq_false_of_not_eq_true hpresent
    have hcomp : (called dev).comp = goodByte dev0 := by
      unfold called goodByte drvsel
      rw [h.still.dcb]
    have hpos : 0 < sectorCount dev0 := by
      unfold sectorCount
      split_ifs with h0
      · decide
      · exact Nat.pos_of_ne_zero fun hz => h0 (BitVec.eq_of_toNat_eq hz)
    have hover : Over dev0 (fails ERR_NOTRDY (called dev)) 0 :=
      over_failed rfl (touched_none h.touched) nofun hpos (fun hin => hpresent hin.1)
        h.still.completions hcomp
    refine @goes_of_lt dev0 dev (fails ERR_NOTRDY (called dev)) _ ?_ (.ended 0 hover)
      (by rw [hover.left]; omega)
    rw [hstep]
    rcases h.sector hsector with hc | hc | hc
    · rw [run_read hc, cmd_read_sectors, if_pos hgone]
    · rw [run_verify hc, cmd_read_sectors, if_pos hgone]
    · rw [run_write hc, cmd_write_sectors, if_pos hgone]

theorem Course.called (h : Course dev0 dev i) : Course dev0 (called dev) i :=
  h.still (still_called dev)

theorem Course.sector (h : Course dev0 dev i) (hsector : Sector dev0) : Sector dev := by
  unfold Sector
  rw [h.cmd]
  exact hsector

/-- A callback that is done with a sector. -/
def lastly (dev : Hdc) : Hdc := { called dev with buf_idx := 0, count := (called dev).count - 1 }

/-- The handler of a command that reads, on its drive. -/
theorem sending_step (h : Sending dev0 dev i) (hsector : Sector dev0) (ht : dev.timer = true) :
    ∃ no_data : Bool, (no_data = true ↔ cmd dev0 = CMD_READ_VERIFY) ∧
      (dev.state = STATE_SDATA → step dev (.callback host) = sdata host (!no_data) (called dev)) ∧
      (dev.state = STATE_SDONE → step dev (.callback host) =
        .ok (if (lastly dev).count = 0 then set_intr (lastly dev)
        else doSend host no_data (next_sector (lastly dev)))) := by
  have hcourse := h.course.called
  obtain ⟨no_data, hrun, hiff⟩ := @run_reads (called dev) host (hcourse.sector hsector)
    (by rw [hcourse.cmd]; exact h.kind)
  rw [hcourse.cmd] at hiff
  have hstep : step dev (.callback host) = cmd_read_sectors host no_data (called dev) :=
    (callback_eq ht).trans hrun
  refine ⟨no_data, hiff, fun hs => ?_, fun hs => ?_⟩
  · have hs' : (called dev).state = STATE_SDATA := hs
    rw [hstep, cmd_read_sectors, if_neg hcourse.is_present, hs']
  · have hs' : (called dev).state = STATE_SDONE := hs
    rw [hstep, cmd_read_sectors, if_neg hcourse.is_present]
    split <;> rename_i hcase
    · exact HdcState.noConfusion (hs'.symm.trans hcase)
    · exact HdcState.noConfusion (hs'.symm.trans hcase)
    · exact HdcState.noConfusion (hs'.symm.trans hcase)
    · exact (apply_ite Except.ok _ _ _).symm
    · exact absurd hs' hcase

/-- A sector goes out, as far as DMA takes it. -/
theorem goes_sdata (hsector : Sector dev0) (hinv : Inv dev) (h : Sending dev0 dev i)
    (hs : dev.state = STATE_SDATA) (ht : dev.timer = true) : Goes dev0 dev (.callback host) := by
  obtain ⟨no_data, hiff, hstep, -⟩ := @sending_step dev0 dev i host h hsector ht
  have hleft := left_data h.course (Or.inl hs)
  have hmode : dmaEnabled dev0 = true ∨ cmd dev0 = CMD_READ_VERIFY := by
    rcases h.phase with ⟨hno, -⟩ | ⟨-, -, ⟨-, hmode⟩ | ⟨hno, -, -⟩⟩
    · exact absurd (hs.symm.trans hno) nofun
    · exact hmode
    · exact absurd (ht.symm.trans hno) nofun
  have hdone : ∀ dev', Still dev dev' → dev'.touched = dev.touched → dev'.state = STATE_SDONE →
      dev'.timer = true → Live dev0 dev' ∧ left dev' < left dev := by
    intro dev' hstill htouched hstate htimer
    refine ⟨.sending i ⟨h.course.still hstill, h.kind, h.here, ?_, Or.inl ⟨hstate, htimer⟩⟩, ?_⟩
    · unfold Touched
      rw [htouched]
      exact h.touched
    · rw [left_done (h.course.still hstill) (Or.inl hstate), hleft, hstill.count,
        dataSteps_dma hmode]
      exact Nat.lt_succ_self _
  by_cases hno : no_data = true
  · obtain ⟨hlive, hless⟩ := hdone { called dev with state := STATE_SDONE, timer := true }
      ⟨rfl, rfl, rfl, rfl, rfl, rfl, rfl, rfl, rfl⟩ rfl rfl rfl
    refine goes_of_lt ?_ hlive hless
    rw [hstep hs, hno]
    rfl
  · have hoff : no_data = false := Bool.eq_false_of_not_eq_true hno
    have hon := hinv.on (by rw [hs]; nofun)
    obtain ⟨hlt, hlarge⟩ := hon.sends hs
    obtain ⟨area, off, hat, harea, hle⟩ :=
      hlarge fun hc => hno (hiff.mpr (h.course.cmd.symm.trans hc))
    obtain ⟨off', idx, out, status, timer, done, heq, h1, h2, h3, h4, h5⟩ :=
      @sendDma_spec (called dev) host area harea (dev.buf_len - dev.buf_idx) 0 off hat hle
        (Nat.add_sub_cancel' hon.base.idx) hon.base.len
    have hrun : sdata host (!no_data) (called dev) = .ok (if done then
        { called dev with
          buf_ptr := some ⟨area, off'⟩
          buf_idx := idx
          dma_out := out
          status := status
          state := STATE_SDONE
          timer := true }
        else
          { called dev with
            buf_ptr := some ⟨area, off'⟩
            buf_idx := idx
            dma_out := out
            status := status
            timer := timer }) := by
      have hsend : sendDma host ((called dev).buf_len - (called dev).buf_idx) 0 (called dev) = _ :=
        heq
      unfold sdata
      rw [hoff, Bool.not_false, if_pos rfl, hsend]
      cases done <;> rfl
    cases done with
    | true =>
      obtain ⟨hlive, hless⟩ := hdone { called dev with
        buf_ptr := some ⟨area, off'⟩
        buf_idx := idx
        dma_out := out
        status := status
        state := STATE_SDONE
        timer := true } ⟨rfl, rfl, rfl, rfl, rfl, rfl, rfl, rfl, rfl⟩ rfl rfl rfl
      exact goes_of_lt ((hstep hs).trans hrun) hlive hless
    | false =>
      obtain ⟨hidx, htimer⟩ := h4 rfl
      have hlen : dev.buf_len = SECTOR_SIZE := h.course.len
      change idx < dev.buf_len at hidx
      have hstill : Still dev { called dev with
          buf_ptr := some ⟨area, off'⟩
          buf_idx := idx
          dma_out := out
          status := status
          timer := timer } := ⟨rfl, rfl, rfl, rfl, rfl, rfl, rfl, rfl, rfl⟩
      have hmine := left_data (h.course.still hstill) (Or.inl hs)
      refine ⟨_, (hstep hs).trans hrun, ?_, ?_, fun hu => ?_⟩
      · exact .sending i ⟨h.course.still hstill, h.kind, h.here, h.touched,
          Or.inr ⟨hs, hlen ▸ hidx, Or.inl ⟨htimer, hmode⟩⟩⟩
      · rw [dataSteps_dma hmode] at hleft hmine
        rw [hleft]
        exact Nat.le_of_eq hmine
      · exact Bool.noConfusion (h5 hu.2)

/-- A sector that has gone out: it was the last one, or the next one is read. -/
theorem goes_sdone (hsector : Sector dev0) (h : Sending dev0 dev i) (hw : Works host)
    (hs : dev.state = STATE_SDONE) (ht : dev.timer = true) : Goes dev0 dev (.callback host) := by
  obtain ⟨no_data, hiff, -, hstep⟩ := @sending_step dev0 dev i host h hsector ht
  have hleft := left_done h.course (Or.inl hs)
  have hcourse := h.course.called
  have hcount : dev.count + i = sectorCount dev0 := h.course.count
  have hlt := h.course.lt
  have hupto : ∀ j < i + 1, Inside dev0 j := fun j hj => by
    rcases Nat.lt_succ_iff_lt_or_eq.mp hj with hlt | rfl
    · exact h.course.before j hlt
    · exact h.here
  have hlastly : (lastly dev).count = dev.count - 1 := rfl
  by_cases hlast : (lastly dev).count = 0
  · have hover : Over dev0 (set_intr (lastly dev)) (i + 1) :=
      over_good rfl h.touched hupto (by omega) h.course.completions (comp_called h.course)
    refine goes_of_lt ?_ (.ended (i + 1) hover) (by rw [hover.left, hleft]; exact Nat.succ_pos _)
    rw [hstep hs, if_pos hlast]
  · obtain ⟨htouched, htimer, hcomp, -, hnext⟩ := next_sector_rest (lastly dev)
    have hbefore : Before dev0 (next_sector (lastly dev)) (i + 1) := by
      refine ⟨hcourse.next h.here (by omega), ?_, htimer, hcomp.trans (comp_called h.course)⟩
      unfold Touched
      rw [htouched]
      exact h.touched
    obtain ⟨hlive, hle⟩ := live_doSend hw hbefore no_data h.kind hiff
    refine goes_of_lt ?_ hlive (hle.trans_lt ?_)
    · rw [hstep hs, if_neg hlast]
    · rw [hnext, hleft, hlastly, show (dev.count - 1).toNat = dev.count.toNat - 1 by omega]
      exact Nat.lt_succ_self _

/-- A buffer of a sector is not the device control block. -/
theorem area_ne_dcb {area : Area} (h : Course dev0 dev i) (hle : dev.buf_len ≤ area.size) :
    area ≠ .dcb := by
  rintro rfl
  rw [h.len] at hle
  exact absurd hle (by decide)

/-- A sector comes in, as far as DMA gives it. -/
theorem goes_rdata (hinv : Inv dev) (h : Receiving dev0 dev i) (hs : dev.state = STATE_RDATA)
    (ht : dev.timer = true) : Goes dev0 dev (.callback host) := by
  have hcourse := h.course.called
  have hleft := left_data h.course (Or.inr hs)
  have hmode : dmaEnabled dev0 = true := by
    rcases h.phase with ⟨hno, -⟩ | ⟨-, -, ⟨-, hmode⟩ | ⟨hno, -⟩⟩
    · exact HdcState.noConfusion (hs.symm.trans hno)
    · exact hmode
    · exact Bool.noConfusion (ht.symm.trans hno)
  have hon := hinv.on (by rw [hs]; nofun)
  obtain ⟨hlt, area, hat, harea⟩ := hon.receives hs
  obtain ⟨dcb, data, sector_buf, idx, status, timer, done, heq, hdcb, h2, h3, h4, h5⟩ :=
    @receiveDma_spec { called dev with status := STAT_BSY } host area (dev.buf_len - dev.buf_idx) 0
      hat (Nat.add_sub_cancel' hon.base.idx) harea
  obtain rfl := hdcb (area_ne_dcb h.course harea)
  have hstep : step dev (.callback host) = rdata host { called dev with status := STAT_BSY } := by
    have hs' : (called dev).state = STATE_RDATA := hs
    rw [callback_eq ht, run_write (hcourse.cmd.trans h.kind), cmd_write_sectors,
      if_neg hcourse.is_present]
    split <;> rename_i hcase
    · exact HdcState.noConfusion (hs'.symm.trans hcase)
    · exact HdcState.noConfusion (hs'.symm.trans hcase)
    · rfl
    · exact HdcState.noConfusion (hs'.symm.trans hcase)
    · exact absurd hs' (by assumption)
  have hrun : rdata host { called dev with status := STAT_BSY } = .ok (if done then
      { called dev with
        data := data
        sector_buf := sector_buf
        buf_idx := idx
        status := status
        state := STATE_RDONE
        timer := true }
      else
        { called dev with
          data := data
          sector_buf := sector_buf
          buf_idx := idx
          status := status
          timer := timer }) := by
    have hreceive : receiveDma host
        ((called dev).buf_len - (called dev).buf_idx) 0
          { called dev with status := STAT_BSY } = _ :=
      heq
    unfold rdata
    rw [hreceive]
    cases done <;> rfl
  cases done with
  | true =>
    have hstill : Still dev { called dev with
        data := data
        sector_buf := sector_buf
        buf_idx := idx
        status := status
        state := STATE_RDONE
        timer := true } := ⟨rfl, rfl, rfl, rfl, rfl, rfl, rfl, rfl, rfl⟩
    refine goes_of_lt (hstep.trans hrun) (.receiving i ⟨h.course.still hstill, h.kind, h.touched,
      Or.inl ⟨rfl, rfl⟩⟩) ?_
    rw [hleft, dataSteps_dma (Or.inl hmode)]
    exact (Nat.le_of_eq (left_done (h.course.still hstill) (Or.inr rfl))).trans_lt
      (Nat.lt_succ_self _)
  | false =>
    obtain ⟨hidx, htimer⟩ := h4 rfl
    have hlen : dev.buf_len = SECTOR_SIZE := h.course.len
    change idx < dev.buf_len at hidx
    have hstill : Still dev { called dev with
        data := data
        sector_buf := sector_buf
        buf_idx := idx
        status := status
        timer := timer } := ⟨rfl, rfl, rfl, rfl, rfl, rfl, rfl, rfl, rfl⟩
    have hmine := left_data (h.course.still hstill) (Or.inr hs)
    refine ⟨_, hstep.trans hrun, ?_, ?_, fun hu => ?_⟩
    · exact .receiving i ⟨h.course.still hstill, h.kind, h.touched,
        Or.inr ⟨hs, hlen ▸ hidx, Or.inl ⟨htimer, hmode⟩⟩⟩
    · rw [dataSteps_dma (Or.inl hmode)] at hleft hmine
      rw [hleft]
      exact Nat.le_of_eq hmine
    · exact Bool.noConfusion (h5 hu.2)

theorem still_gather (dev : Hdc) : Still dev (gather dev) ∧ (gather dev).touched = dev.touched ∧
    (gather dev).timer = dev.timer ∧ (gather dev).comp = dev.comp ∧
    (gather dev).status = dev.status := by
  unfold gather
  split_ifs
  · exact ⟨⟨rfl, rfl, rfl, rfl, rfl, rfl, rfl, rfl, rfl⟩, rfl, rfl, rfl, rfl⟩
  · exact ⟨⟨rfl, rfl, rfl, rfl, rfl, rfl, rfl, rfl, rfl⟩, rfl, rfl, rfl, rfl⟩

/-- A sector that has come in is written, if it lies inside. -/
theorem live_writeSector (hw : Works host) (h : Receiving dev0 dev i) :
    Live dev0 (writeSector host (called dev)) ∧
      left (writeSector host (called dev)) ≤ (dev.count - 1).toNat * sectorSteps dev0 := by
  have hlt := h.course.lt
  obtain ⟨hstill, htouched, htimer, hcomp, hstatus⟩ := still_gather (called dev)
  have hcourse : Course dev0 (gather (called dev)) i := h.course.called.still hstill
  have hdcb : (gather (called dev)).status.getLsbD 7 = true := by
    rw [hstatus]
    exact called_dcb dev
  have hgood : (gather (called dev)).comp = goodByte dev0 := hcomp.trans (comp_called h.course)
  have hcount : (gather (called dev)).count = dev.count := hstill.count
  have hold : Touched dev0 (gather (called dev)) i := by
    unfold Touched
    rw [htouched]
    exact h.touched
  have hoff : (gather (called dev)).timer = false := htimer
  unfold writeSector
  generalize gather (called dev) = t at hcourse hdcb hgood hcount hold hoff
  by_cases hin : Inside dev0 i
  · rw [hcourse.found hin]
    dsimp only
    obtain ⟨u, hwrite, hsame, htouch, hoffu, hcompu, hstatusu⟩ :=
      image_write_works hw (firstSector dev0 + i) t
    rw [hwrite]
    dsimp only
    have hu : Course dev0 u i := hcourse.still hsame
    have hnew : Touched dev0 u (i + 1) := by
      refine hold.snoc htouch rfl ?_
      rw [if_pos h.kind, hcourse.hdd_num]
      exact ⟨_, rfl⟩
    have hupto : ∀ j < i + 1, Inside dev0 j := fun j hj => by
      rcases Nat.lt_succ_iff_lt_or_eq.mp hj with hlt | rfl
      · exact h.course.before j hlt
      · exact hin
    have htotal := hu.count
    have hoff' : u.timer = false := hoffu.trans hoff
    have hgood' : u.comp = goodByte dev0 := hcompu.trans hgood
    split_ifs with hlast
    · have hover : Over dev0 (set_intr { u with buf_idx := 0, count := u.count - 1 }) (i + 1) :=
        over_good hoff' hnew hupto (by omega) hu.completions hgood'
      exact ⟨.ended (i + 1) hover, by rw [hover.left]; exact Nat.zero_le _⟩
    · obtain ⟨htouch', htimer', hcomp', hstatus', hnext⟩ :=
        next_sector_rest { u with buf_idx := 0, count := u.count - 1 }
      have hbefore : Before dev0 (next_sector { u with buf_idx := 0, count := u.count - 1 })
          (i + 1) := by
        refine ⟨hu.next hin (by omega), ?_, htimer'.trans hoff', hcomp'.trans hgood'⟩
        unfold Touched
        rw [htouch']
        exact hnew
      have hdcb' : (next_sector { u with buf_idx := 0, count := u.count - 1 }).status.getLsbD 7 =
          true := by
        rw [hstatus']
        exact (congrArg (BitVec.getLsbD · 7) hstatusu).trans hdcb
      obtain ⟨hlive, hle⟩ := live_doRecv hbefore h.kind hdcb'
      refine ⟨hlive, hle.trans (Nat.le_of_eq ?_)⟩
      rw [hnext]
      change (u.count - 1).toNat * sectorSteps dev0 = _
      rw [hsame.count, hcount]
  · rw [hcourse.lost hin]
    have hover : Over dev0 (failed { t with sense := ERR_ILLADDR }) i :=
      over_failed hoff hold hcourse.before hlt hin hcourse.completions hgood
    exact ⟨.ended i hover, by rw [hover.left]; exact Nat.zero_le _⟩

theorem goes_rdone (h : Receiving dev0 dev i) (hw : Works host) (hs : dev.state = STATE_RDONE)
    (ht : dev.timer = true) : Goes dev0 dev (.callback host) := by
  have hcourse := h.course.called
  have hleft := left_done h.course (Or.inr hs)
  have hcount : dev.count + i = sectorCount dev0 := h.course.count
  have hlt := h.course.lt
  have hstep : step dev (.callback host) = .ok (writeSector host (called dev)) := by
    have hs' : (called dev).state = STATE_RDONE := hs
    rw [callback_eq ht, run_write (hcourse.cmd.trans h.kind), cmd_write_sectors,
      if_neg hcourse.is_present]
    split <;> rename_i hcase
    · exact HdcState.noConfusion (hs'.symm.trans hcase)
    · exact HdcState.noConfusion (hs'.symm.trans hcase)
    · exact HdcState.noConfusion (hs'.symm.trans hcase)
    · rfl
    · exact absurd hs' (by assumption)
  obtain ⟨hlive, hle⟩ := live_writeSector hw h
  rw [show (dev.count - 1).toNat = dev.count.toNat - 1 by omega] at hle
  exact goes_of_lt hstep hlive (by rw [hleft]; exact Nat.lt_succ_of_le hle)

/-! ## The ports -/

/-- A step that changes nothing that the command depends on. -/
theorem goes_same {op : Op} (hstep : step dev op = .ok dev') (hlive : Live dev0 dev')
    (hleft : left dev' = left dev) (huseless : ¬Useful dev op) : Goes dev0 dev op :=
  ⟨dev', hstep, hlive, Nat.le_of_eq hleft, fun hu => absurd hu huseless⟩

/-- Other bits of the status, and other fields that only the registers show. -/
theorem live_status (h : Live dev0 dev) {status : Byte}
    (h7 : status.getLsbD 7 = dev.status.getLsbD 7) (h0 : status.getLsbD 0 = dev.status.getLsbD 0) :
    Live dev0 { dev with status := status } := by
  have hstill : Still dev { dev with status := status } :=
    ⟨rfl, rfl, rfl, rfl, rfl, rfl, rfl, rfl, rfl⟩
  cases h with
  | waiting h =>
    obtain ⟨h1, h2, h3, h4, h5, h6, h7, h8, h9⟩ := h.still
    exact .waiting ⟨h.state, h.timer, ⟨h1, h2, h3, h4, h5, h6, h7, h8, h9⟩, h.touched⟩
  | sending i h => exact .sending i ⟨h.course.still hstill, h.kind, h.here, h.touched, h.phase⟩
  | receiving i h =>
    refine .receiving i ⟨h.course.still hstill, h.kind, h.touched, ?_⟩
    rcases h.phase with hdone | ⟨hs, hidx, hdma | ⟨h1, h2, h3, h4, h5⟩⟩
    · exact Or.inl hdone
    · exact Or.inr ⟨hs, hidx, Or.inl hdma⟩
    · exact Or.inr ⟨hs, hidx, Or.inr ⟨h1, h2, h3, h7.trans h4, h0.trans h5⟩⟩
  | ended k h => exact .ended k ⟨h.timer, h.state, h.touched, h.before, h.ended⟩

/-- The data port gives a byte of a sector that is being sent. -/
theorem goes_taken (port : BitVec 16) (hinv : Inv dev) (h : Sending dev0 dev i)
    (hdata : port &&& 3 = 0) (hs : dev.state = STATE_SDATA) (hoff : dmaEnabled dev = false)
    (hcmd : cmd dev ≠ CMD_READ_VERIFY) : Goes dev0 dev (.read port) := by
  have hleft := left_data h.course (Or.inl hs)
  rw [dataSteps_port (h.course.dma ▸ hoff) (h.course.cmd ▸ hcmd)] at hleft
  have hon := hinv.on (by rw [hs]; nofun)
  have hmode : dev.timer = false ∧ (dmaEnabled dev0 = false ∧ cmd dev0 ≠ CMD_READ_VERIFY) ∧
      dev.buf_ptr = some ⟨.data, 0⟩ := by
    rcases h.phase with ⟨hno, -⟩ | ⟨-, -, ⟨-, hdma | hv⟩ | hpio⟩
    · exact HdcState.noConfusion (hs.symm.trans hno)
    · exact Bool.noConfusion ((hoff.symm.trans h.course.dma).trans hdma)
    · exact absurd (h.course.cmd.trans hv) hcmd
    · exact hpio
  obtain ⟨htimer, hdma, hat⟩ := hmode
  have hlen := h.course.len
  have hlt : dev.buf_idx < dev.buf_len := (hon.sends hs).1
  obtain ⟨b, hb⟩ := @byteAt_lt dev .data dev.buf_idx (by
    rw [hlen] at hlt
    exact hlt.trans (by decide))
  have hstep : step dev (.read port) =
      .ok (taken { dev with status := dev.status &&& ~~~STAT_IRQ }) := by
    unfold step hdc_read
    dsimp only
    rw [if_pos hdata, if_pos hs, if_neg (Nat.not_lt.mpr hon.base.idx)]
    rw [@peek_some { dev with status := dev.status &&& ~~~STAT_IRQ } ⟨.data, 0⟩ dev.buf_idx b hat
      ((Nat.zero_add dev.buf_idx).symm ▸ hb)]
    rfl
  have hstill : Still dev (taken { dev with status := dev.status &&& ~~~STAT_IRQ }) := by
    unfold taken
    dsimp only
    split_ifs <;> exact ⟨rfl, rfl, rfl, rfl, rfl, rfl, rfl, rfl, rfl⟩
  by_cases hlast : dev.buf_idx + 1 = dev.buf_len
  · have heq : (taken { dev with status := dev.status &&& ~~~STAT_IRQ }).state = STATE_SDONE ∧
        (taken { dev with status := dev.status &&& ~~~STAT_IRQ }).timer = true ∧
        (taken { dev with status := dev.status &&& ~~~STAT_IRQ }).touched = dev.touched := by
      unfold taken
      dsimp only
      rw [if_pos hlast]
      exact ⟨rfl, rfl, rfl⟩
    obtain ⟨hstate, hon', htouched⟩ := heq
    refine goes_of_lt hstep (.sending i ⟨h.course.still hstill, h.kind, h.here, ?_,
      Or.inl ⟨hstate, hon'⟩⟩) ?_
    · unfold Touched
      rw [htouched]
      exact h.touched
    · rw [left_done (h.course.still hstill) (Or.inl hstate), hstill.count, hleft]
      omega
  · have heq : (taken { dev with status := dev.status &&& ~~~STAT_IRQ }) = { dev with
        status := dev.status &&& ~~~STAT_IRQ, buf_idx := dev.buf_idx + 1 } := by
      unfold taken
      exact if_neg hlast
    rw [heq] at hstep hstill
    have hmine := left_data (h.course.still hstill) (Or.inl hs)
    rw [dataSteps_port (h.course.dma ▸ hoff) (h.course.cmd ▸ hcmd)] at hmine
    have hmore : dev.buf_idx + 1 < SECTOR_SIZE := by omega
    refine goes_of_lt hstep (.sending i ⟨h.course.still hstill, h.kind, h.here, h.touched,
      Or.inr ⟨hs, hmore, Or.inr ⟨htimer, hdma, hat⟩⟩⟩) ?_
    rw [hleft]
    refine (Nat.le_of_eq hmine).trans_lt ?_
    change (dev.count.toNat - 1) * sectorSteps dev0 + (SECTOR_SIZE - (dev.buf_idx + 1)) + 1 < _
    omega

/-- The data port takes a byte of a sector that is being received. -/
theorem goes_filled (port : BitVec 16) (val : Byte) (hinv : Inv dev) (h : Receiving dev0 dev i)
    (hdata : port &&& 3 = 0) (hs : dev.state = STATE_RDATA) (hoff : dmaEnabled dev = false) :
    Goes dev0 dev (.write port val) := by
  have hcmd : cmd dev0 ≠ CMD_READ_VERIFY := by
    rw [h.kind]
    decide
  have hleft := left_data h.course (Or.inr hs)
  rw [dataSteps_port (h.course.dma ▸ hoff) hcmd] at hleft
  have hon := hinv.on (by rw [hs]; nofun)
  have hmode : dev.timer = false ∧ dmaEnabled dev0 = false ∧ dev.buf_ptr = some ⟨.data, 0⟩ ∧
      dev.status.getLsbD 7 = true ∧ dev.status.getLsbD 0 = true := by
    rcases h.phase with ⟨hno, -⟩ | ⟨-, -, ⟨-, hdma⟩ | hpio⟩
    · exact HdcState.noConfusion (hs.symm.trans hno)
    · exact Bool.noConfusion ((hoff.symm.trans h.course.dma).trans hdma)
    · exact hpio
  obtain ⟨htimer, hdma, hat, hdcb, hreq⟩ := hmode
  have hlen := h.course.len
  obtain ⟨hlt, -⟩ := hon.receives hs
  obtain ⟨dcb, data, sector_buf, hpoke, hsame⟩ := poke_spec hat
    (show 0 + dev.buf_idx < Area.data.size by
      rw [hlen] at hlt
      exact (Nat.zero_add _).symm ▸ hlt.trans (by decide)) val
  obtain rfl := hsame nofun
  have hstep : step dev (.write port val) =
      .ok (filled { dev with data := data, sector_buf := sector_buf }) := by
    unfold step hdc_write
    dsimp only
    rw [if_pos hdata, if_pos hs, isSet_req, hreq, if_neg (by nofun), if_neg (by omega), hpoke]
    rfl
  have hstill : Still dev (filled { dev with data := data, sector_buf := sector_buf }) := by
    unfold filled
    dsimp only
    split_ifs <;> exact ⟨rfl, rfl, rfl, rfl, rfl, rfl, rfl, rfl, rfl⟩
  by_cases hlast : dev.buf_idx + 1 = dev.buf_len
  · have heq : (filled { dev with data := data, sector_buf := sector_buf }).state = STATE_RDONE ∧
        (filled { dev with data := data, sector_buf := sector_buf }).timer = true ∧
        (filled { dev with data := data, sector_buf := sector_buf }).touched = dev.touched := by
      unfold filled
      dsimp only
      rw [if_pos hlast, isSet_dcb, hdcb]
      exact ⟨rfl, rfl, rfl⟩
    obtain ⟨hstate, hon', htouched⟩ := heq
    refine goes_of_lt hstep (.receiving i ⟨h.course.still hstill, h.kind, ?_,
      Or.inl ⟨hstate, hon'⟩⟩) ?_
    · unfold Touched
      rw [htouched]
      exact h.touched
    · rw [left_done (h.course.still hstill) (Or.inr hstate), hstill.count, hleft]
      omega
  · have heq : filled { dev with data := data, sector_buf := sector_buf } = { dev with
        data := data, sector_buf := sector_buf, buf_idx := dev.buf_idx + 1 } := by
      unfold filled
      exact if_neg hlast
    rw [heq] at hstep hstill
    have hmine := left_data (h.course.still hstill) (Or.inr hs)
    rw [dataSteps_port (h.course.dma ▸ hoff) hcmd] at hmine
    have hmore : dev.buf_idx + 1 < SECTOR_SIZE := by omega
    refine goes_of_lt hstep (.receiving i ⟨h.course.still hstill, h.kind, h.touched,
      Or.inr ⟨hs, hmore, Or.inr ⟨htimer, hdma, hat, hdcb, hreq⟩⟩⟩) ?_
    rw [hleft]
    refine (Nat.le_of_eq hmine).trans_lt ?_
    change (dev.count.toNat - 1) * sectorSteps dev0 + (SECTOR_SIZE - (dev.buf_idx + 1)) + 1 < _
    omega

/-- A callback, when the timer is on. -/
theorem goes_callback (hsector : Sector dev0) (hinv : Inv dev) (hlive : Live dev0 dev)
    (hw : Works host) : Goes dev0 dev (.callback host) := by
  by_cases ht : dev.timer = true
  · cases hlive with
    | waiting h => exact goes_start hsector h hw
    | sending i h =>
      rcases h.phase with ⟨hs, -⟩ | ⟨hs, -⟩
      · exact goes_sdone hsector h hw hs ht
      · exact goes_sdata hsector hinv h hs ht
    | receiving i h =>
      rcases h.phase with ⟨hs, -⟩ | ⟨hs, -⟩
      · exact goes_rdone h hw hs ht
      · exact goes_rdata hinv h hs ht
    | ended k h => exact Bool.noConfusion (h.timer.symm.trans ht)
  · refine goes_same ?_ hlive rfl fun hu => ht hu.1
    unfold step
    exact if_neg ht

theorem Live.of_sdata (h : Live dev0 dev) (hs : dev.state = STATE_SDATA) :
    ∃ i, Sending dev0 dev i := by
  cases h with
  | waiting h => exact HdcState.noConfusion (hs.symm.trans h.state)
  | sending i h => exact ⟨i, h⟩
  | receiving i h =>
    rcases h.phase with ⟨hno, -⟩ | ⟨hno, -⟩
    · exact HdcState.noConfusion (hs.symm.trans hno)
    · exact HdcState.noConfusion (hs.symm.trans hno)
  | ended k h =>
    rcases h.state with hno | hno
    · exact HdcState.noConfusion (hs.symm.trans hno)
    · exact HdcState.noConfusion (hs.symm.trans hno)

theorem Live.of_rdata (h : Live dev0 dev) (hs : dev.state = STATE_RDATA) :
    ∃ i, Receiving dev0 dev i := by
  cases h with
  | waiting h => exact HdcState.noConfusion (hs.symm.trans h.state)
  | sending i h =>
    rcases h.phase with ⟨hno, -⟩ | ⟨hno, -⟩
    · exact HdcState.noConfusion (hs.symm.trans hno)
    · exact HdcState.noConfusion (hs.symm.trans hno)
  | receiving i h => exact ⟨i, h⟩
  | ended k h =>
    rcases h.state with hno | hno
    · exact HdcState.noConfusion (hs.symm.trans hno)
    · exact HdcState.noConfusion (hs.symm.trans hno)

/-- In STATE_COMPL the command is over. -/
theorem Live.of_compl (h : Live dev0 dev) (hs : dev.state = STATE_COMPL) :
    ∃ k, Over dev0 dev k := by
  cases h with
  | waiting h => exact HdcState.noConfusion (hs.symm.trans h.state)
  | sending i h =>
    rcases h.phase with ⟨hno, -⟩ | ⟨hno, -⟩
    · exact HdcState.noConfusion (hs.symm.trans hno)
    · exact HdcState.noConfusion (hs.symm.trans hno)
  | receiving i h =>
    rcases h.phase with ⟨hno, -⟩ | ⟨hno, -⟩
    · exact HdcState.noConfusion (hs.symm.trans hno)
    · exact HdcState.noConfusion (hs.symm.trans hno)
  | ended k h => exact ⟨k, h⟩

theorem status_irq_bits (x : Byte) : (x &&& ~~~STAT_IRQ).getLsbD 7 = x.getLsbD 7 ∧
    (x &&& ~~~STAT_IRQ).getLsbD 0 = x.getLsbD 0 := by
  refine ⟨?_, ?_⟩
  · exact (BitVec.getLsbD_and ..).trans (Bool.and_true _)
  · exact (BitVec.getLsbD_and ..).trans (Bool.and_true _)

theorem goes_read (port : BitVec 16) (hinv : Inv dev) (hlive : Live dev0 dev)
    (hmode : ByMode dev (.read port)) : Goes dev0 dev (.read port) := by
  by_cases hdata : port &&& 3 = 0
  · by_cases hs : dev.state = STATE_SDATA
    · obtain ⟨i, h⟩ := hlive.of_sdata hs
      obtain ⟨hoff, hcmd⟩ := hmode hdata hs
      exact goes_taken port hinv h hdata hs hoff hcmd
    · have huseless : ¬Useful dev (.read port) := fun hu => hs hu.2
      by_cases hc : dev.state = STATE_COMPL
      · obtain ⟨k, h⟩ := hlive.of_compl hc
        have hover : Over dev0 { dev with status := 0x00, state := STATE_IDLE } k :=
          ⟨h.timer, Or.inr rfl, h.touched, h.before, h.ended⟩
        refine goes_same ?_ (.ended k hover) (hover.left.trans h.left.symm) huseless
        unfold step hdc_read
        dsimp only
        rw [if_pos hdata, if_neg hs, if_pos hc]
        rfl
      · obtain ⟨h7, h0⟩ := status_irq_bits dev.status
        refine goes_same ?_ (live_status hlive h7 h0) ?_ huseless
        · unfold step hdc_read
          dsimp only
          rw [if_pos hdata, if_neg hs, if_neg hc]
          rfl
        · rfl
  · refine goes_same ?_ hlive rfl fun hu => hdata hu.1
    unfold step hdc_read
    dsimp only
    rw [if_neg hdata]
    split_ifs <;> rfl

theorem goes_write (port : BitVec 16) (val : Byte) (hinv : Inv dev) (hlive : Live dev0 dev)
    (hmode : ByMode dev (.write port val)) : Goes dev0 dev (.write port val) := by
  obtain ⟨hdata, hpio⟩ := hmode
  by_cases hs : dev.state = STATE_RDATA
  · obtain ⟨i, h⟩ := hlive.of_rdata hs
    exact goes_filled port val hinv h hdata hs (hpio hs)
  · refine goes_same ?_ hlive rfl fun hu => hs hu.2
    unfold step hdc_write
    dsimp only
    rw [if_pos hdata, if_neg hs]

theorem goes (hsector : Sector dev0) (hinv : Inv dev) (hlive : Live dev0 dev) (op : Op)
    (hmode : ByMode dev op) : Goes dev0 dev op := by
  cases op with
  | callback host => exact goes_callback hsector hinv hlive hmode
  | read port => exact goes_read port hinv hlive hmode
  | write port val => exact goes_write port val hinv hlive hmode

end

/-! ## Runs -/

section

variable {dev0 dev : Hdc}

/-- Where a run of the command has come to. -/
theorem run_live (hsector : Sector dev0) (hinv : Inv dev) (hlive : Live dev0 dev) (ops : List Op)
    (hmode : Along step ByMode dev ops) : ∃ dev', ops.foldlM step dev = .ok dev' ∧ Inv dev' ∧
      Live dev0 dev' ∧ ∀ u, Serves dev ops u → left dev' + u ≤ left dev := by
  induction ops generalizing dev with
  | nil =>
    refine ⟨dev, rfl, hinv, hlive, fun u hu => ?_⟩
    cases hu
    exact Nat.le_refl _
  | cons op ops ih =>
    obtain ⟨hop, hrest⟩ := along_cons.mp hmode
    obtain ⟨t, ht, hadv⟩ := goes hsector hinv hlive op hop
    have hinv' : Inv t := by
      have hstep := step_guarded dev op hinv
      rw [ht] at hstep
      exact hstep.2
    obtain ⟨dev', hdev', hinv'', hlive', hserves⟩ := ih hinv' hadv.live (hrest t ht)
    refine ⟨dev', ?_, hinv'', hlive', fun u hu => ?_⟩
    · rw [List.foldlM_cons, ht]
      exact hdev'
    · cases hu with
      | idle hstep hu =>
        obtain rfl := Except.ok.inj (ht.symm.trans hstep)
        exact (hserves u hu).trans hadv.le
      | useful huseful hstep hu =>
        obtain rfl := Except.ok.inj (ht.symm.trans hstep)
        have hmore := hserves _ hu
        have hless := hadv.lt huseful
        omega

/-- A command that is not over waits for some useful step. -/
theorem Live.waits (h : Live dev0 dev) :
    (∃ k, Over dev0 dev k) ∨ ∃ op, ByMode dev op ∧ Useful dev op := by
  have hcallback : dev.timer = true → ∃ op, ByMode dev op ∧ Useful dev op := fun ht =>
    ⟨.callback serving, serving_works, ht, nofun⟩
  cases h with
  | waiting h => exact Or.inr (hcallback h.timer)
  | sending i h =>
    rcases h.phase with ⟨-, ht⟩ | ⟨hs, -, ⟨ht, -⟩ | ⟨-, ⟨hoff, hcmd⟩, -⟩⟩
    · exact Or.inr (hcallback ht)
    · exact Or.inr (hcallback ht)
    · exact Or.inr ⟨.read 0x320, fun _ _ => ⟨h.course.dma ▸ hoff, h.course.cmd ▸ hcmd⟩, rfl, hs⟩
  | receiving i h =>
    rcases h.phase with ⟨-, ht⟩ | ⟨hs, -, ⟨ht, -⟩ | ⟨-, hoff, -⟩⟩
    · exact Or.inr (hcallback ht)
    · exact Or.inr (hcallback ht)
    · exact Or.inr ⟨.write 0x320 0, ⟨rfl, fun _ => h.course.dma ▸ hoff⟩, rfl, hs⟩
  | ended k h => exact Or.inl ⟨k, h⟩

/-- With nothing left to do the command is over. -/
theorem Live.over_of_left (h : Live dev0 dev) (hleft : left dev = 0) : ∃ k, Over dev0 dev k := by
  cases h with
  | waiting h =>
    unfold left at hleft
    rw [h.state] at hleft
    dsimp only at hleft
    rw [h.timer, if_pos rfl] at hleft
    omega
  | sending i h =>
    rcases h.phase with ⟨hs, -⟩ | ⟨hs, -⟩
    · rw [left_done h.course (Or.inl hs)] at hleft
      omega
    · rw [left_data h.course (Or.inl hs)] at hleft
      omega
  | receiving i h =>
    rcases h.phase with ⟨hs, -⟩ | ⟨hs, -⟩
    · rw [left_done h.course (Or.inr hs)] at hleft
      omega
    · rw [left_data h.course (Or.inr hs)] at hleft
      omega
  | ended k h => exact ⟨k, h⟩

/-- How far a command has come, and whether it has ended. -/
theorem Live.reached (h : Live dev0 dev) : ∃ k, Touched dev0 dev k ∧ (∀ j < k, Inside dev0 j) ∧
    k ≤ sectorCount dev0 ∧
    (dev.completions = dev0.completions ∧ (∃ op, ByMode dev op ∧ Useful dev op) ∨
      Ended dev0 dev k) ∧
    (left dev = 0 → Ended dev0 dev k) := by
  have hactive : ∀ k, Touched dev0 dev k → (∀ j < k, Inside dev0 j) → k ≤ sectorCount dev0 →
      dev.completions = dev0.completions → (∀ k, ¬Over dev0 dev k) →
      ∃ k, Touched dev0 dev k ∧ (∀ j < k, Inside dev0 j) ∧ k ≤ sectorCount dev0 ∧
        (dev.completions = dev0.completions ∧ (∃ op, ByMode dev op ∧ Useful dev op) ∨
          Ended dev0 dev k) ∧
        (left dev = 0 → Ended dev0 dev k) := fun k h1 h2 h3 h4 hnot => by
    refine ⟨k, h1, h2, h3, Or.inl ⟨h4, ?_⟩, fun h0 => ?_⟩
    · rcases h.waits with ⟨k', hover⟩ | hwaits
      · exact absurd hover (hnot k')
      · exact hwaits
    · obtain ⟨k', hover⟩ := h.over_of_left h0
      exact absurd hover (hnot k')
  cases h with
  | waiting h =>
    refine hactive 0 (touched_none h.touched) nofun (Nat.zero_le _) h.still.completions
      fun k ho => ?_
    exact Bool.noConfusion (ho.timer.symm.trans h.timer)
  | sending i h =>
    refine hactive (i + 1) h.touched (fun j hj => ?_) h.course.lt h.course.completions
      fun k ho => ?_
    · rcases Nat.lt_succ_iff_lt_or_eq.mp hj with hlt | rfl
      · exact h.course.before j hlt
      · exact h.here
    · rcases h.phase with ⟨hs, -⟩ | ⟨hs, -⟩ <;> rcases ho.state with hno | hno <;>
        exact HdcState.noConfusion (hs.symm.trans hno)
  | receiving i h =>
    refine hactive i h.touched h.course.before (Nat.le_of_lt h.course.lt) h.course.completions
      fun k ho => ?_
    rcases h.phase with ⟨hs, -⟩ | ⟨hs, -⟩ <;> rcases ho.state with hno | hno <;>
      exact HdcState.noConfusion (hs.symm.trans hno)
  | ended k h =>
    refine ⟨k, h.touched, h.before, ?_, Or.inr h.ended, fun _ => h.ended⟩
    rcases h.ended with ⟨hk, -⟩ | ⟨hk, -⟩
    · exact Nat.le_of_eq hk
    · exact Nat.le_of_lt hk

/-- By DMA, and for VERIFY, the timer is on until the command is over. -/
theorem Live.timer_on (h : Live dev0 dev)
    (hmode : dmaEnabled dev0 = true ∨ cmd dev0 = CMD_READ_VERIFY) :
    (∃ k, Over dev0 dev k) ∨ dev.timer = true := by
  cases h with
  | waiting h => exact Or.inr h.timer
  | sending i h =>
    rcases h.phase with ⟨-, ht⟩ | ⟨-, -, ⟨ht, -⟩ | ⟨-, ⟨hoff, hcmd⟩, -⟩⟩
    · exact Or.inr ht
    · exact Or.inr ht
    · rcases hmode with hdma | hverify
      · exact Bool.noConfusion (hoff.symm.trans hdma)
      · exact absurd hverify hcmd
  | receiving i h =>
    rcases h.phase with ⟨-, ht⟩ | ⟨-, -, ⟨ht, -⟩ | ⟨-, hoff, -⟩⟩
    · exact Or.inr ht
    · exact Or.inr ht
    · rcases hmode with hdma | hverify
      · exact Bool.noConfusion (hoff.symm.trans hdma)
      · exact absurd (h.kind.symm.trans hverify) (by decide)
  | ended k h => exact Or.inl ⟨k, h⟩

theorem callbacks_off (ht : dev.timer = false) (calls : List (Bool × Host)) :
    (calls.map fun x => Op.callback x.2).foldlM step dev = .ok dev := by
  induction calls with
  | nil => rfl
  | cons x calls ih =>
    have hstep : step dev (.callback x.2) = .ok dev := if_neg (by rw [ht]; nofun)
    rw [List.map_cons, List.foldlM_cons, hstep]
    exact ih

/-- By DMA, and for VERIFY, each callback with data is useful until the command is over, however
many come without. -/
theorem callbacks_serve (hsector : Sector dev0)
    (hmode : dmaEnabled dev0 = true ∨ cmd dev0 = CMD_READ_VERIFY) (hinv : Inv dev)
    (hlive : Live dev0 dev) (calls : List (Bool × Host)) (hworks : ∀ x ∈ calls, Works x.2)
    (hdata : ∀ x ∈ calls, x.1 = true → ∀ j, x.2.dma j ≠ DMA_NODATA) :
    ∃ dev', (calls.map fun x => Op.callback x.2).foldlM step dev = .ok dev' ∧
      ((∃ k, Over dev0 dev' k) ∨
        Serves dev (calls.map fun x => Op.callback x.2) (calls.countP Prod.fst)) := by
  induction calls generalizing dev with
  | nil => exact ⟨dev, rfl, Or.inr (.nil dev)⟩
  | cons x calls ih =>
    rcases hlive.timer_on hmode with ⟨k, hover⟩ | hon
    · exact ⟨dev, callbacks_off hover.timer _, Or.inl ⟨k, hover⟩⟩
    rw [List.forall_mem_cons] at hworks hdata
    obtain ⟨t, ht, hadv⟩ := goes_callback hsector hinv hlive hworks.1
    have hinv' : Inv t := by
      have hstep := step_guarded dev (.callback x.2) hinv
      rw [ht] at hstep
      exact hstep.2
    obtain ⟨dev', hrun, hrest⟩ := ih hinv' hadv.live hworks.2 hdata.2
    refine ⟨dev', ?_, hrest.imp_right fun hserves => ?_⟩
    · rw [List.map_cons, List.foldlM_cons, ht]
      exact hrun
    · rw [List.map_cons, List.countP_cons]
      by_cases hx : x.1 = true
      · rw [if_pos hx]
        exact .useful ⟨hon, hdata.1 hx⟩ ht hserves
      · rw [if_neg hx]
        exact .idle ht hserves

end

/-- From any state in which a device control block has come, a command of many sectors touches the
sectors that it names, in order and once each, as far as they lie inside. It ends well after all of
them, or with an error at the first one outside, and it does end: after at most so many useful
steps. -/
theorem a_command_touches_the_sectors_it_names (type : Nat) (sw : Byte) (drives : Bool → Drive)
    (before : List Op) (dev0 : Hdc)
      (hreach : before.foldlM step (initial type sw drives) = .ok dev0)
    (hsector : Sector dev0) (hstate : dev0.state = STATE_IDLE) (htimer : dev0.timer = true)
    (ops : List Op) (hmode : Along step ByMode dev0 ops) :
    ∃ dev k, ops.foldlM step dev0 = .ok dev ∧ Touched dev0 dev k ∧ (∀ j < k, Inside dev0 j) ∧
      k ≤ sectorCount dev0 ∧
      (dev.completions = dev0.completions ∧ (∃ op, ByMode dev op ∧ Useful dev op) ∨
        Ended dev0 dev k) ∧
      ∀ u, Serves dev0 ops u → sectorCount dev0 * sectorSteps dev0 + 1 ≤ u → Ended dev0 dev k := by
  have hinv : Inv dev0 := by
    have hrun := guarded_foldlM step_guarded (inv_initial type sw drives) before
    rw [hreach] at hrun
    exact hrun.2
  have hwaiting : Waiting dev0 dev0 :=
    ⟨hstate, htimer, ⟨rfl, rfl, rfl, rfl, rfl, rfl, rfl, rfl, rfl⟩, rfl⟩
  obtain ⟨dev, hdev, -, hlive, hserves⟩ := run_live hsector hinv (.waiting hwaiting) ops hmode
  obtain ⟨k, htouched, hinside, hk, hended, hover⟩ := hlive.reached
  refine ⟨dev, k, hdev, htouched, hinside, hk, hended, fun u hu hle => hover ?_⟩
  have hleft : left dev0 = sectorCount dev0 * sectorSteps dev0 + 1 := by
    unfold left
    rw [hstate]
    dsimp only
    rw [htimer, if_pos rfl]
  have htotal := hserves u hu
  omega

/-- READ_SECTORS of three sectors by DMA, from the last sector of a track on. -/
def readThree : List Op :=
  [.write 0x323 0x01, .write 0x322 0, .write 0x320 0x08, .write 0x320 0, .write 0x320 16,
    .write 0x320 0, .write 0x320 3, .write 0x320 0]

/-- DMA stops after a hundred bytes of the first sector, and it is tried again. -/
def stalling : Host := { serving with dma := fun k => if k < 100 then 0 else DMA_NODATA }

def threeSectors : List (Bool × Host) :=
  [(true, serving), (false, stalling)] ++ List.replicate 6 (true, serving)

theorem threeSectors_work : ∀ x ∈ threeSectors, Works x.2 ∧
    (x.1 = true → ∀ j, x.2.dma j ≠ DMA_NODATA) := by
  have hstalling : Works stalling := ⟨fun _ => ⟨_, rfl⟩, fun _ => rfl⟩
  intro x hx
  rcases List.mem_append.mp hx with hx | hx
  · rcases List.mem_cons.mp hx with rfl | hx
    · exact ⟨serving_works, fun _ _ => nofun⟩
    · obtain rfl := List.mem_singleton.mp hx
      exact ⟨hstalling, nofun⟩
  · rw [List.eq_of_mem_replicate hx]
    exact ⟨serving_works, fun _ _ => nofun⟩

/-- The first callback begins, one stalls, and then there are two for each sector. -/
theorem three_sectors_are_read : ∃ dev0 dev,
    readThree.foldlM step (initial 0 0xff oneDrive) = .ok dev0 ∧
    (threeSectors.map fun x => Op.callback x.2).foldlM step dev0 = .ok dev ∧
    Touched dev0 dev 3 ∧ Ended dev0 dev 3 := by
  obtain ⟨dev0, hreach, hcmd, hdma, hstate, htimer, hcount, hinside⟩ : ∃ dev0,
      readThree.foldlM step (initial 0 0xff oneDrive) = .ok dev0 ∧ cmd dev0 = CMD_READ_SECTORS ∧
        dmaEnabled dev0 = true ∧ dev0.state = STATE_IDLE ∧ dev0.timer = true ∧
        sectorCount dev0 = 3 ∧ ∀ j < 3, Inside dev0 j :=
    ⟨_, rfl, rfl, rfl, rfl, rfl, rfl, fun j hj => ⟨rfl, ⟨by decide, by decide⟩,
      (Nat.add_lt_add_left hj _).trans (by decide)⟩⟩
  have hinv : Inv dev0 := by
    have hrun := guarded_foldlM step_guarded (inv_initial 0 0xff oneDrive) readThree
    rw [hreach] at hrun
    exact hrun.2
  obtain ⟨dev, k, hrun, htouched, -, -, hended, hover⟩ :=
    a_command_touches_the_sectors_it_names 0 0xff oneDrive readThree dev0 hreach (Or.inl hcmd)
      hstate htimer (threeSectors.map fun x => Op.callback x.2) fun first op rest hl _ _ => by
        have hmem : op ∈ threeSectors.map fun x => Op.callback x.2 := by
          rw [hl]
          exact List.mem_append_right first List.mem_cons_self
        obtain ⟨x, hx, rfl⟩ := List.mem_map.mp hmem
        exact (threeSectors_work x hx).1
  have hend : Ended dev0 dev k := by
    obtain ⟨dev', hrun', hcase⟩ := callbacks_serve (Or.inl hcmd) (Or.inl hdma) hinv
      (.waiting ⟨hstate, htimer, ⟨rfl, rfl, rfl, rfl, rfl, rfl, rfl, rfl, rfl⟩, rfl⟩) threeSectors
      (fun x hx => (threeSectors_work x hx).1) fun x hx => (threeSectors_work x hx).2
    obtain rfl := Except.ok.inj (hrun.symm.trans hrun')
    rcases hcase with ⟨k', hover'⟩ | hserves
    · refine hended.resolve_left fun h => ?_
      rcases hover'.ended with ⟨-, hc⟩ | ⟨-, -, hc⟩ <;>
        exact absurd (congrArg List.length (h.1.symm.trans hc)) (by simp)
    · refine hover _ hserves ?_
      rw [hcount, sectorSteps, dataSteps_dma (Or.inl hdma)]
      decide
  obtain rfl : k = 3 := by
    rcases hend with ⟨hk, -⟩ | ⟨hk, hout, -⟩
    · exact hk.trans hcount
    · exact absurd (hinside k (hcount ▸ hk)) hout
  exact ⟨dev0, dev, hreach, hrun, htouched, hend⟩

end blumach.hdc_xta
