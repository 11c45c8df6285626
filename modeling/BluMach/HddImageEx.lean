-- The transfers of `disk/hdd_image.c` that are clipped to the disk. The number of sectors that
-- they clip to is two less than the disk has, and a start behind it makes the rest of the disk
-- come out as almost 2^32 sectors.
import BluMach.HddImage

namespace blumach.hdd_image

/-! ## Transfers -/

/-- What a transfer uses of an image, and whether a seek or the transfer itself fails. The
position that it leaves is not used here. -/
structure Drive where
  type : ImageType
  /-- `file` is not NULL -/
  file : Bool
  base : BitVec 32
  last_sector : BitVec 32
  fails : Bool

/-- The sectors that the image was asked for, and the value returned. A file is asked with a seek
and a transfer of bytes, and a VHD image is asked through `minivhd`, which has its own check
against the size in its footer. -/
structure Transfer where
  asked : Nat → Prop
  ret : Int

/-- The sector has a byte among the `len` bytes of the file from `offset` on. -/
def Meets (base offset len k : Nat) : Prop :=
  offset < base + 512 * k + 512 ∧ base + 512 * k < offset + len

/-- `((uint64_t) sector << 9) + base`. -/
def sectorOffset (d : Drive) (sector : BitVec 32) : BitVec 64 :=
  (sector.setWidth 64 <<< 9) + d.base.setWidth 64

/-- The file is asked for `count` records of 512 bytes, from the place of the first sector. -/
def fileTransfer (d : Drive) (sector count : BitVec 32) : Transfer :=
  if d.file = false ∨ d.fails = true then ⟨fun _ => False, -1⟩
  else ⟨Meets d.base.toNat (sectorOffset d sector).toNat (512 * count.toNat), 0⟩

/-- `minivhd` is asked for `count` sectors, read as an unsigned number here (as `int num_sectors`,
`mvhd_format_sectors` does nothing from 2^31 on). Its images are modelled apart, and `fails` stands
for what it reports of this one call. -/
def vhdTransfer (d : Drive) (sector count : BitVec 32) : Transfer where
  asked k := sector.toNat ≤ k ∧ k < sector.toNat + count.toNat
  ret := if d.fails then -1 else 0

def hdd_image_read (d : Drive) (sector count : BitVec 32) : Transfer :=
  if d.type = .HDD_IMAGE_VHD then vhdTransfer d sector count else fileTransfer d sector count

def hdd_image_write (d : Drive) (sector count : BitVec 32) : Transfer :=
  if d.type = .HDD_IMAGE_VHD then vhdTransfer d sector count else fileTransfer d sector count

/-- One record of zeroes for each sector. -/
def hdd_image_zero (d : Drive) (sector count : BitVec 32) : Transfer :=
  if d.type = .HDD_IMAGE_VHD then vhdTransfer d sector count else fileTransfer d sector count

/-! ## Clipped transfers -/

def hdd_image_get_last_sector (d : Drive) : BitVec 32 := d.last_sector

def hdd_sectors (d : Drive) : BitVec 32 := hdd_image_get_last_sector d - 1

/-- `transfer_sectors`. -/
def transferSectors (d : Drive) (sector count : BitVec 32) : BitVec 32 :=
  if hdd_sectors d - sector < count then hdd_sectors d - sector else count

def hdd_image_read_ex (d : Drive) (sector count : BitVec 32) : Transfer :=
  let transfer_sectors := transferSectors d sector count
  let t := hdd_image_read d sector transfer_sectors
  { t with ret := if t.ret < 0 then -1 else if count ≠ transfer_sectors then 1 else 0 }

def hdd_image_write_ex (d : Drive) (sector count : BitVec 32) : Transfer :=
  let transfer_sectors := transferSectors d sector count
  let t := hdd_image_write d sector transfer_sectors
  { t with ret := if t.ret < 0 then -1 else if count ≠ transfer_sectors then 1 else 0 }

/-- What `hdd_image_zero` returns is not looked at. -/
def hdd_image_zero_ex (d : Drive) (sector count : BitVec 32) : Transfer :=
  let transfer_sectors := transferSectors d sector count
  let t := hdd_image_zero d sector transfer_sectors
  { t with ret := if count ≠ transfer_sectors then 1 else 0 }

/-! ## What they should do -/

/-- The image cannot be read or written. -/
def IoError (d : Drive) : Prop :=
  d.fails = true ∨ (d.type ≠ .HDD_IMAGE_VHD ∧ d.file = false)

/-- The sectors of the range that are on the disk, 0 for a range that is all on the disk, and
1 for another one. -/
def Clipped (d : Drive) (sector count : BitVec 32) (t : Transfer) : Prop :=
  (IoError d → t.ret = -1) ∧
  (¬IoError d →
    (∀ k, t.asked k ↔
      sector.toNat ≤ k ∧ k < sector.toNat + count.toNat ∧ k ≤ d.last_sector.toNat) ∧
    t.ret =
      if count.toNat = 0 ∨ sector.toNat + count.toNat ≤ d.last_sector.toNat + 1 then 0 else 1)

/-- The range is empty, or it ends two sectors before the end of the disk, or it is the last
sector; or the disk has one sector and the range starts at the last number. -/
def Reached (d : Drive) (sector count : BitVec 32) : Prop :=
  count.toNat = 0 ∨ sector.toNat + count.toNat + 1 ≤ d.last_sector.toNat ∨
    (sector = d.last_sector ∧ count.toNat = 1) ∨
    (d.last_sector.toNat = 0 ∧ sector.toNat = 2 ^ 32 - 1)

section

variable {d : Drive} {sector count : BitVec 32}

theorem meets_iff (k : Nat) :
    Meets d.base.toNat (sectorOffset d sector).toNat (512 * count.toNat) k ↔
      sector.toNat ≤ k ∧ k < sector.toNat + count.toNat := by
  have hs := sector.isLt
  have hb := d.base.isLt
  have hshift : ((sector.setWidth 64 : BitVec 64) <<< 9).toNat = 512 * sector.toNat := by
    rw [BitVec.toNat_shiftLeft, Nat.shiftLeft_eq, BitVec.toNat_setWidth]
    omega
  have hoffset : (sectorOffset d sector).toNat = 512 * sector.toNat + d.base.toNat := by
    unfold sectorOffset
    rw [BitVec.toNat_add, hshift, BitVec.toNat_setWidth]
    omega
  unfold Meets
  rw [hoffset]
  omega

/-- Without an error the request is the range of the sectors, whatever the image is. -/
theorem read_asked (sector count : BitVec 32) (he : ¬IoError d) (k : Nat) :
    ((hdd_image_read d sector count).asked k ↔
      sector.toNat ≤ k ∧ k < sector.toNat + count.toNat) ∧
    (hdd_image_read d sector count).ret = 0 := by
  unfold IoError at he
  rw [not_or, not_and] at he
  obtain ⟨hfails, hfile⟩ := he
  unfold hdd_image_read
  by_cases hv : d.type = .HDD_IMAGE_VHD
  · rw [if_pos hv]
    unfold vhdTransfer
    exact ⟨Iff.rfl, if_neg hfails⟩
  · have hok : ¬(d.file = false ∨ d.fails = true) := by
      rw [not_or]
      exact ⟨hfile hv, hfails⟩
    rw [if_neg hv]
    unfold fileTransfer
    rw [if_neg hok]
    exact ⟨meets_iff k, rfl⟩

theorem read_error (sector count : BitVec 32) (he : IoError d) :
    (hdd_image_read d sector count).ret = -1 := by
  unfold IoError at he
  unfold hdd_image_read
  by_cases hv : d.type = .HDD_IMAGE_VHD
  · have hfails : d.fails = true := he.elim id fun h => absurd hv h.1
    rw [if_pos hv]
    unfold vhdTransfer
    exact if_pos hfails
  · have hbad : d.file = false ∨ d.fails = true := he.elim Or.inr fun h => Or.inl h.2
    rw [if_neg hv]
    unfold fileTransfer
    rw [if_pos hbad]

theorem transferSectors_toNat (d : Drive) (sector count : BitVec 32) :
    (transferSectors d sector count).toNat =
      min count.toNat
        ((d.last_sector.toNat + (2 ^ 32 - 1) + (2 ^ 32 - sector.toNat)) % 2 ^ 32) := by
  have hl := d.last_sector.isLt
  have hs := sector.isLt
  have hrest : (hdd_sectors d - sector).toNat =
      (d.last_sector.toNat + (2 ^ 32 - 1) + (2 ^ 32 - sector.toNat)) % 2 ^ 32 := by
    unfold hdd_sectors hdd_image_get_last_sector
    rw [BitVec.toNat_sub, BitVec.toNat_sub]
    have hone : (1 : BitVec 32).toNat = 1 := rfl
    rw [hone]
    omega
  unfold transferSectors
  split_ifs with h
  · rw [BitVec.lt_def, hrest] at h
    rw [hrest]
    omega
  · rw [BitVec.lt_def, hrest] at h
    omega

/-- A range that starts with the asked one is the part of it on the disk exactly if it has as
many sectors. -/
theorem same_range_iff {s m c l : Nat} :
    (∀ k, s ≤ k ∧ k < s + m ↔ s ≤ k ∧ k < s + c ∧ k ≤ l) ↔ m = min c (l + 1 - s) := by
  constructor
  · intro h
    -- the first sector of either range that is not in the other one
    have h1 := h (s + m)
    have h2 := h (s + min c (l + 1 - s))
    omega
  · intro h k
    omega

/-- The clipped request is what it should be exactly if the range is reached. -/
theorem clipped_iff (d : Drive) (sector count : BitVec 32) :
    ((∀ k, sector.toNat ≤ k ∧ k < sector.toNat + (transferSectors d sector count).toNat ↔
        sector.toNat ≤ k ∧ k < sector.toNat + count.toNat ∧ k ≤ d.last_sector.toNat) ∧
      (if count ≠ transferSectors d sector count then (1 : Int) else 0) =
        if count.toNat = 0 ∨ sector.toNat + count.toNat ≤ d.last_sector.toNat + 1 then 0 else 1) ↔
      Reached d sector count := by
  have hl := d.last_sector.isLt
  have hs := sector.isLt
  have hc := count.isLt
  have ht := transferSectors_toNat d sector count
  have hsame : sector = d.last_sector ↔ sector.toNat = d.last_sector.toNat := BitVec.toNat_inj.symm
  have hcut : count ≠ transferSectors d sector count ↔
      count.toNat ≠ (transferSectors d sector count).toNat := BitVec.toNat_inj.symm.not
  unfold Reached
  rw [same_range_iff, hsame]
  generalize (transferSectors d sector count).toNat = m at ht hcut ⊢
  have hret : ((if count ≠ transferSectors d sector count then (1 : Int) else 0) =
      if count.toNat = 0 ∨ sector.toNat + count.toNat ≤ d.last_sector.toNat + 1 then 0 else 1) ↔
      (count.toNat ≠ m ↔
        ¬(count.toNat = 0 ∨ sector.toNat + count.toNat ≤ d.last_sector.toNat + 1)) := by
    split_ifs with h1 h2 h2
    · exact iff_of_false (by decide) fun h => absurd h2 (h.mp (hcut.mp h1))
    · exact iff_of_true rfl (iff_of_true (hcut.mp h1) h2)
    · exact iff_of_true rfl (iff_of_false (fun h => h1 (hcut.mpr h)) (not_not_intro h2))
    · exact iff_of_false (by decide) fun h => h1 (hcut.mpr (h.mpr h2))
  rw [hret, ht]
  generalize sector.toNat = s at *
  generalize count.toNat = c at *
  generalize d.last_sector.toNat = l at *
  clear ht hcut hret hsame
  -- a start before the last sector, at it, and behind it
  rcases Nat.lt_trichotomy s l with h | h | h
  · have hrest : (l + (2 ^ 32 - 1) + (2 ^ 32 - s)) % 2 ^ 32 = l - 1 - s := by omega
    rw [hrest]
    omega
  · have hrest : (l + (2 ^ 32 - 1) + (2 ^ 32 - s)) % 2 ^ 32 = 2 ^ 32 - 1 := by omega
    rw [hrest]
    omega
  · have hrest : (l + (2 ^ 32 - 1) + (2 ^ 32 - s)) % 2 ^ 32 = 2 ^ 32 - 1 + l - s := by omega
    rw [hrest]
    omega

/-- A clipped read or write gives the I/O error on, and otherwise is right if the range is
reached. -/
theorem checked_iff (d : Drive) (sector count : BitVec 32) :
    Clipped d sector count (hdd_image_read_ex d sector count) ↔
      IoError d ∨ Reached d sector count := by
  rw [← clipped_iff]
  unfold Clipped hdd_image_read_ex
  dsimp only
  by_cases he : IoError d
  · have hret := read_error sector (transferSectors d sector count) he
    rw [hret]
    exact iff_of_true ⟨fun _ => rfl, fun h => absurd he h⟩ (Or.inl he)
  · have hread := fun k => read_asked sector (transferSectors d sector count) he k
    have hret := (hread 0).2
    have hok : ¬(hdd_image_read d sector (transferSectors d sector count)).ret < 0 := by
      rw [hret]
      decide
    rw [if_neg hok, or_iff_right he]
    simp only [fun k => (hread k).1]
    exact ⟨fun h => h.2 he, fun h => ⟨fun h' => absurd h' he, fun _ => h⟩⟩

/-- Clipped zeroing does not give the error on. -/
theorem unchecked_iff (d : Drive) (sector count : BitVec 32) :
    Clipped d sector count (hdd_image_zero_ex d sector count) ↔
      ¬IoError d ∧ Reached d sector count := by
  rw [← clipped_iff]
  unfold Clipped hdd_image_zero_ex
  dsimp only
  by_cases he : IoError d
  · refine iff_of_false (fun h => ?_) fun h => h.1 he
    have hret := h.1 he
    split_ifs at hret
  · have hread := fun k => read_asked sector (transferSectors d sector count) he k
    have hzero : hdd_image_zero d sector (transferSectors d sector count) =
      hdd_image_read d sector (transferSectors d sector count) := rfl
    rw [hzero, and_iff_right he]
    simp only [fun k => (hread k).1]
    exact ⟨fun h => h.2 he, fun h => ⟨fun h' => absurd h' he, fun _ => h⟩⟩

/-! ## The transfers -/

/-- Exactly when a clipped transfer takes the sectors that are on the disk and says so: a read
and a write if the image fails or the range is reached, and zeroing if it does not fail and the
range is reached. -/
theorem transfers_are_clipped_iff (d : Drive) (sector count : BitVec 32) :
    (Clipped d sector count (hdd_image_read_ex d sector count) ↔
      IoError d ∨ Reached d sector count) ∧
    (Clipped d sector count (hdd_image_write_ex d sector count) ↔
      IoError d ∨ Reached d sector count) ∧
    (Clipped d sector count (hdd_image_zero_ex d sector count) ↔
      ¬IoError d ∧ Reached d sector count) := by
  have hwrite : hdd_image_write_ex d sector count = hdd_image_read_ex d sector count := rfl
  rw [hwrite]
  exact ⟨checked_iff d sector count, checked_iff d sector count, unchecked_iff d sector count⟩

/-- A raw image of ten sectors. -/
def tenSectors : Drive := ⟨.HDD_IMAGE_RAW, true, 0, 9, false⟩

/-- The last two sectors of a disk are left out of a read of all of it, and a read behind the
disk is made in full and said to be on it. -/
theorem the_last_two_sectors_are_left_out :
    ¬(hdd_image_read_ex tenSectors 0 10).asked 8 ∧
    ¬(hdd_image_read_ex tenSectors 0 10).asked 9 ∧
    (hdd_image_read_ex tenSectors 0 10).ret = 1 ∧
    (hdd_image_read_ex tenSectors 10 1).asked 10 ∧
    (hdd_image_read_ex tenSectors 10 1).ret = 0 ∧
    ¬Clipped tenSectors 0 10 (hdd_image_read_ex tenSectors 0 10) ∧
    ¬Clipped tenSectors 10 1 (hdd_image_read_ex tenSectors 10 1) := by
  have hread : ∀ sector count k, (hdd_image_read_ex tenSectors sector count).asked k ↔
      sector.toNat ≤ k ∧ k < sector.toNat + (transferSectors tenSectors sector count).toNat := by
    intro sector count k
    exact meets_iff k
  have hall : (transferSectors tenSectors 0 10).toNat = 8 := by decide
  have hbehind : (transferSectors tenSectors 10 1).toNat = 1 := by decide
  have hret : (hdd_image_read_ex tenSectors 0 10).ret = 1 := by decide
  have hret' : (hdd_image_read_ex tenSectors 10 1).ret = 0 := by decide
  have herror : ¬IoError tenSectors := by
    unfold IoError tenSectors
    decide
  refine ⟨?_, ?_, hret, ?_, hret', fun h => ?_, fun h => ?_⟩
  · rw [hread, hall]
    decide
  · rw [hread, hall]
    decide
  · rw [hread, hbehind]
    decide
  · have h0 := (h.2 herror).2
    rw [hret] at h0
    revert h0
    decide
  · have h0 := (h.2 herror).2
    rw [hret'] at h0
    revert h0
    decide

end

end blumach.hdd_image
