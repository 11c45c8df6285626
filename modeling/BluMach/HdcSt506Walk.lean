-- The addresses of a command with many sectors: how the controller goes from one to the next,
-- and when these are the numbers that follow each other.
import BluMach.HdcSt506
import BluMach.Odometer
import Mathlib.Logic.Function.Iterate

namespace blumach.hdc_st506_xt

open odometer

/-! ## Places -/

def place (dev : Hdc) : Place := ⟨dev.cylinder, dev.head, dev.sector⟩

/-- The number of a place in the configured geometry. -/
def lba (drive : Drive) (p : Place) : Nat := linear drive.cfg_hpc.toNat drive.cfg_spt.toNat p

/-- The places that `get_sector` accepts. -/
structure Found (type : Nat) (drive : Drive) (p : Place) : Prop where
  present : drive.present = true
  physical : type = ST506_XT_TYPE_TOSHIBA_T3200 →
    p.cylinder < drive.cfg_cyl.toNat ∧ p.cylinder < drive.tracks.toNat ∧
      p.head < drive.hpc.toNat ∧ p.sector < drive.spt.toNat
  head : p.head < drive.cfg_hpc.toNat
  sector : p.sector < drive.cfg_spt.toNat

theorem Found.valid {type : Nat} {drive : Drive} {p : Place} (h : Found type drive p) :
    Valid drive.cfg_hpc.toNat drive.cfg_spt.toNat p := ⟨h.head, h.sector⟩

theorem get_sector_found {drive : Drive} {dev : Hdc} (h : Found dev.type drive (place dev)) :
    get_sector drive dev = (dev, some (lba drive (place dev))) := by
  obtain ⟨hpresent, hphysical, hhead, hsector⟩ := h
  change dev.type = _ → dev.cylinder < _ ∧ dev.cylinder < _ ∧ dev.head < _ ∧ dev.sector < _
    at hphysical
  change dev.head < _ at hhead
  change dev.sector < _ at hsector
  unfold get_sector
  rw [if_neg (by rw [hpresent]; nofun), if_neg, if_neg (Nat.not_le.mpr hhead),
    if_neg (Nat.not_le.mpr hsector)]
  · rfl
  · rintro ⟨htype, hout⟩
    have hin := hphysical htype
    omega

theorem get_sector_lost {drive : Drive} {dev : Hdc} (h : ¬Found dev.type drive (place dev)) :
    ∃ err, get_sector drive dev = ({ dev with error := err }, none) := by
  unfold get_sector
  split_ifs with hpresent hphysical hhead hsector
  · exact ⟨_, rfl⟩
  · exact ⟨_, rfl⟩
  · exact ⟨_, rfl⟩
  · exact ⟨_, rfl⟩
  · refine absurd ⟨by simpa using hpresent, fun htype => ?_, Nat.not_le.mp hhead,
      Nat.not_le.mp hsector⟩ h
    have hin := fun hout => hphysical ⟨htype, hout⟩
    unfold place
    simp only
    omega

/-! ## From one place to the next -/

/-- The place of the controller, and the cylinder that the drive is on. -/
structure Position where
  place : Place
  cylinder : BitVec 16

def position (dev : Hdc) (drive : Drive) : Position := ⟨place dev, drive.cylinder⟩

/-- `next_sector`, on what it changes. -/
def forward (type : Nat) (drive : Drive) (q : Position) : Position :=
  let p := q.place
  if p.sector + 1 < drive.cfg_spt.toNat then ⟨⟨p.cylinder, p.head, p.sector + 1⟩, q.cylinder⟩
  else if p.head + 1 < drive.cfg_hpc.toNat then ⟨⟨p.cylinder, p.head + 1, 0⟩, q.cylinder⟩
  else if q.cylinder + 1 < drive.cfg_cyl ∨ type = ST506_XT_TYPE_TOSHIBA_T3200 then
    ⟨⟨p.cylinder + 1, 0, 0⟩, q.cylinder + 1⟩
  else ⟨⟨p.cylinder, 0, 0⟩, drive.cfg_cyl - 1⟩

/-- A controller and a drive at a position. -/
def moveTo (dev : Hdc) (q : Position) : Hdc :=
  { dev with cylinder := q.place.cylinder, head := q.place.head, sector := q.place.sector }

theorem next_sector_eq (dev : Hdc) (drive : Drive) :
    next_sector dev drive =
      (moveTo dev (forward dev.type drive (position dev drive)),
        { drive with cylinder := (forward dev.type drive (position dev drive)).cylinder }) := by
  unfold next_sector forward position place moveTo
  simp only [ge_iff_le]
  by_cases hs : dev.sector + 1 < drive.cfg_spt.toNat
  · simp only [if_neg (Nat.not_le.mpr hs), if_pos hs]
  · simp only [if_pos (Nat.not_lt.mp hs), if_neg hs]
    by_cases hh : dev.head + 1 < drive.cfg_hpc.toNat
    · simp only [if_neg (Nat.not_le.mpr hh), if_pos hh]
    · simp only [if_pos (Nat.not_lt.mp hh), if_neg hh]
      by_cases hc : drive.cylinder + 1 < drive.cfg_cyl
      · simp only [if_neg (BitVec.not_le.mpr hc), if_pos (Or.inl hc)]
      · by_cases ht : dev.type = ST506_XT_TYPE_TOSHIBA_T3200
        · simp only [if_pos (BitVec.not_lt.mp hc), if_pos ht, if_pos (Or.inr ht)]
        · simp only [if_pos (BitVec.not_lt.mp hc), if_neg ht, if_neg (not_or.mpr ⟨hc, ht⟩)]

/-- Where a command starts. -/
def start (dev : Hdc) (drive : Drive) : Position where
  place := ⟨chsCylinder dev, chsHead dev, chsSector dev⟩
  cylinder :=
    if chsCylinder dev ≥ drive.cfg_cyl.toNat then drive.cfg_cyl - 1
    else BitVec.ofNat 16 (chsCylinder dev)

/-- The address that is taken from the command, with the sector that is given. -/
theorem chs_eq (sector : Nat) (dev : Hdc) (drive : Drive) :
    ∃ b, chs sector dev drive =
      (moveTo { dev with err_bv := 0x80, count := (dev.command.get 4).toNat }
        ⟨⟨chsCylinder dev, chsHead dev, sector⟩, (start dev drive).cylinder⟩,
        { drive with cylinder := (start dev drive).cylinder }, b) := by
  unfold chs start
  simp only
  split_ifs
  · exact ⟨false, rfl⟩
  · exact ⟨true, rfl⟩

theorem get_chs_eq (dev : Hdc) (drive : Drive) :
    ∃ b, get_chs dev drive =
      (moveTo { dev with err_bv := 0x80, count := (dev.command.get 4).toNat } (start dev drive),
        { drive with cylinder := (start dev drive).cylinder }, b) :=
  chs_eq (chsSector dev) dev drive

/-- The positions of a command, one sector after another. -/
def walk (type : Nat) (drive : Drive) (q : Position) (k : Nat) : Position :=
  (forward type drive)^[k] q

theorem walk_succ (type : Nat) (drive : Drive) (q : Position) (k : Nat) :
    walk type drive q (k + 1) = forward type drive (walk type drive q k) :=
  Function.iterate_succ_apply' ..

/-- The number of sectors of the configured geometry. -/
def size (drive : Drive) : Nat :=
  drive.cfg_cyl.toNat * drive.cfg_hpc.toNat * drive.cfg_spt.toNat

/-- The physical geometry has the sector, as the T3200 checks. -/
def Physical (drive : Drive) (a : Nat) : Prop :=
  a / drive.cfg_spt.toNat / drive.cfg_hpc.toNat < drive.tracks.toNat ∧
    a / drive.cfg_spt.toNat % drive.cfg_hpc.toNat < drive.hpc.toNat ∧
    a % drive.cfg_spt.toNat < drive.spt.toNat

section

variable {type : Nat} {drive : Drive} {q : Position}

/-- The head and the sector are in the configured geometry. -/
def InTrack (drive : Drive) (q : Position) : Prop :=
  Valid drive.cfg_hpc.toNat drive.cfg_spt.toNat q.place

theorem inTrack_forward (h : InTrack drive q) : InTrack drive (forward type drive q) := by
  have hhead := Nat.zero_lt_of_lt h.1
  have hsector := Nat.zero_lt_of_lt h.2
  unfold forward
  simp only
  split_ifs with hs hh
  · exact ⟨h.1, hs⟩
  · exact ⟨hh, hsector⟩
  · exact ⟨hhead, hsector⟩
  · exact ⟨hhead, hsector⟩

theorem inTrack_walk (h : InTrack drive q) (k : Nat) : InTrack drive (walk type drive q k) := by
  induction k with
  | zero => exact h
  | succ k ih =>
    rw [walk_succ]
    exact inTrack_forward ih

/-- A step that does not meet the end of the drive. -/
theorem forward_place (h : q.cylinder + 1 < drive.cfg_cyl ∨ type = ST506_XT_TYPE_TOSHIBA_T3200) :
    (forward type drive q).place =
      advance drive.cfg_hpc.toNat drive.cfg_spt.toNat q.place := by
  unfold forward advance
  simp only
  split_ifs <;> rfl

/-! ## The T3200 -/

theorem lba_t3200 (ht : type = ST506_XT_TYPE_TOSHIBA_T3200) (h : InTrack drive q) (k : Nat) :
    lba drive (walk type drive q k).place = lba drive q.place + k := by
  induction k with
  | zero => rfl
  | succ k ih =>
    rw [walk_succ, forward_place (.inr ht)]
    exact (linear_advance (inTrack_walk h k)).trans (congrArg (· + 1) ih)

theorem found_t3200 (ht : type = ST506_XT_TYPE_TOSHIBA_T3200) (h : InTrack drive q) (k : Nat) :
    Found type drive (walk type drive q k).place ↔
      drive.present = true ∧ lba drive q.place + k < size drive ∧
        Physical drive (lba drive q.place + k) := by
  have hvalid : InTrack drive (walk type drive q k) := inTrack_walk h k
  rw [← lba_t3200 ht h k]
  have hsize := linear_lt_iff hvalid drive.cfg_cyl.toNat
  unfold Physical
  rw [show lba drive (walk type drive q k).place = linear _ _ _ from rfl, cylinder_of_linear hvalid,
    head_of_linear hvalid, sector_of_linear hvalid]
  constructor
  · intro hf
    obtain ⟨hcyl, htracks, hhpc, hspt⟩ := hf.physical ht
    exact ⟨hf.present, hsize.mpr hcyl, htracks, hhpc, hspt⟩
  · rintro ⟨hpresent, hlt, htracks, hhpc, hspt⟩
    exact ⟨hpresent, fun _ => ⟨hsize.mp hlt, htracks, hhpc, hspt⟩, hvalid.1, hvalid.2⟩

/-! ## The other controllers -/

theorem found_other (ht : type ≠ ST506_XT_TYPE_TOSHIBA_T3200) (h : InTrack drive q) (k : Nat) :
    Found type drive (walk type drive q k).place ↔ drive.present = true := by
  have hvalid : InTrack drive (walk type drive q k) := inTrack_walk h k
  exact ⟨fun hf => hf.present, fun hpresent => ⟨hpresent, fun ht' => absurd ht' ht, hvalid.1,
    hvalid.2⟩⟩

/-- The drive follows the controller, and both are in the configured cylinders. -/
structure Follows (drive : Drive) (q : Position) : Prop where
  inTrack : InTrack drive q
  same : q.cylinder.toNat = q.place.cylinder
  inside : q.place.cylinder < drive.cfg_cyl.toNat

/-- The drive turns to the next cylinder with the controller, while there is one. -/
theorem forward_cylinder (h : Follows drive q) (hlt : lba drive q.place + 1 < size drive) :
    forward type drive q =
      ⟨advance drive.cfg_hpc.toNat drive.cfg_spt.toNat q.place,
        BitVec.ofNat 16 (advance drive.cfg_hpc.toNat drive.cfg_spt.toNat q.place).cylinder⟩ := by
  have hsame : q.cylinder = BitVec.ofNat 16 q.place.cylinder := by
    rw [← h.same, BitVec.ofNat_toNat, BitVec.setWidth_eq]
  have hadvance := linear_advance h.inTrack
  have hinside := linear_lt_iff (valid_advance h.inTrack) drive.cfg_cyl.toNat
  unfold forward advance at *
  simp only
  by_cases hs : q.place.sector + 1 < drive.cfg_spt.toNat
  · simp only [if_pos hs, hsame]
  · simp only [if_neg hs] at hinside hadvance ⊢
    by_cases hh : q.place.head + 1 < drive.cfg_hpc.toNat
    · simp only [if_pos hh, hsame]
    · simp only [if_neg hh] at hinside hadvance ⊢
      have hnext : q.place.cylinder + 1 < drive.cfg_cyl.toNat := by
        refine hinside.mp ?_
        rw [hadvance]
        exact hlt
      have hcfg := drive.cfg_cyl.isLt
      have hadd : q.cylinder + 1 = BitVec.ofNat 16 (q.place.cylinder + 1) := by
        rw [hsame, BitVec.ofNat_add]
        rfl
      have hcyl : q.cylinder + 1 < drive.cfg_cyl := by
        rw [hadd, BitVec.lt_def, BitVec.toNat_ofNat, Nat.mod_eq_of_lt (by omega)]
        exact hnext
      rw [if_pos (Or.inl hcyl), hadd]

theorem follows_forward (h : Follows drive q) (hlt : lba drive q.place + 1 < size drive) :
    Follows drive (forward type drive q) ∧
      lba drive (forward type drive q).place = lba drive q.place + 1 := by
  have hadvance := linear_advance h.inTrack
  have hvalid := valid_advance h.inTrack
  have hinside : (advance drive.cfg_hpc.toNat drive.cfg_spt.toNat q.place).cylinder <
      drive.cfg_cyl.toNat := by
    refine (linear_lt_iff hvalid drive.cfg_cyl.toNat).mp ?_
    rw [hadvance]
    exact hlt
  have hcfg := drive.cfg_cyl.isLt
  rw [forward_cylinder h hlt]
  exact ⟨⟨hvalid, Nat.mod_eq_of_lt (by omega), hinside⟩, hadvance⟩

theorem lba_other (h : Follows drive q) (k : Nat) (hlt : lba drive q.place + k < size drive) :
    Follows drive (walk type drive q k) ∧
      lba drive (walk type drive q k).place = lba drive q.place + k := by
  induction k with
  | zero => exact ⟨h, rfl⟩
  | succ k ih =>
    obtain ⟨hf, heq⟩ := ih (by omega)
    obtain ⟨hf', heq'⟩ := @follows_forward type drive _ hf (by omega)
    rw [walk_succ]
    exact ⟨hf', by omega⟩

end

/-! ## The sectors that a command names -/

instance (drive : Drive) (q : Position) : Decidable (InTrack drive q) :=
  inferInstanceAs (Decidable (_ ∧ _))

/-- The number of sectors of a drive that is there. -/
def capacity (drive : Drive) : Nat := if drive.present then size drive else 0

section

variable (dev : Hdc) (drive : Drive)

/-- The count in the command. -/
def sectorCount : Nat := (dev.command.get 4).toNat

/-- The first sector: the cylinder times the heads, and the head, times the sectors, and the
sector. -/
def firstSector : Nat := lba drive (start dev drive).place

/-- From the first sector on, as many as the command counts and the cylinders have. -/
def named : List Nat :=
  if InTrack drive (start dev drive) then
    List.range' (firstSector dev drive)
      (min (sectorCount dev) (capacity drive - firstSector dev drive))
  else []

def AllInside : Prop :=
  InTrack drive (start dev drive) ∧ firstSector dev drive + sectorCount dev ≤ capacity drive

/-- When the controller stays with the sectors that are named. For no count, it has to come to an
address that it refuses. -/
def Kept : Prop :=
  InTrack drive (start dev drive) → drive.present = true →
    if sectorCount dev = 0 then
      dev.type = ST506_XT_TYPE_TOSHIBA_T3200 ∧
        ∃ k ≤ 256, size drive ≤ firstSector dev drive + k ∨
          ¬Physical drive (firstSector dev drive + k)
    else if dev.type = ST506_XT_TYPE_TOSHIBA_T3200 then
      ∀ k < sectorCount dev, firstSector dev drive + k < size drive →
        Physical drive (firstSector dev drive + k)
    else firstSector dev drive + sectorCount dev ≤ size drive

instance : Decidable (Physical drive k) := inferInstanceAs (Decidable (_ ∧ _ ∧ _))

instance : Decidable (InTrack drive q) := inferInstanceAs (Decidable (_ ∧ _))

instance : Decidable (Kept dev drive) :=
  inferInstanceAs (Decidable (InTrack drive (start dev drive) → drive.present = true →
    if sectorCount dev = 0 then
      dev.type = ST506_XT_TYPE_TOSHIBA_T3200 ∧
        ∃ k ≤ 256, size drive ≤ firstSector dev drive + k ∨
          ¬Physical drive (firstSector dev drive + k)
    else if dev.type = ST506_XT_TYPE_TOSHIBA_T3200 then
      ∀ k < sectorCount dev, firstSector dev drive + k < size drive →
        Physical drive (firstSector dev drive + k)
    else firstSector dev drive + sectorCount dev ≤ size drive))

/-- The position after so many sectors. -/
def positionAt (k : Nat) : Position := walk dev.type drive (start dev drive) k

/-- `get_sector` accepts the position after so many sectors. -/
def FoundAt (k : Nat) : Prop := Found dev.type drive (positionAt dev drive k).place

def sectorAt (k : Nat) : Nat := lba drive (positionAt dev drive k).place

variable {dev drive}

theorem foundAt_zero_iff :
    FoundAt dev drive 0 → InTrack drive (start dev drive) ∧ drive.present = true :=
  fun h => ⟨h.valid, h.present⟩

/-- An address that the controller refuses at once. -/
theorem not_foundAt_zero (h : ¬(InTrack drive (start dev drive) ∧ drive.present = true)) :
    ¬FoundAt dev drive 0 := fun hf => h (foundAt_zero_iff hf)

theorem named_nil (h : ¬(InTrack drive (start dev drive) ∧ drive.present = true)) :
    named dev drive = [] := by
  unfold named
  split_ifs with htrack
  · have habsent : ¬drive.present = true := fun hp => h ⟨htrack, hp⟩
    unfold capacity
    rw [if_neg habsent, Nat.zero_sub, Nat.min_zero]
    rfl
  · rfl

theorem length_named (htrack : InTrack drive (start dev drive)) (hp : drive.present = true) :
    (named dev drive).length =
      min (sectorCount dev) (size drive - firstSector dev drive) := by
  unfold named capacity
  rw [if_pos htrack, if_pos hp, List.length_range']

theorem follows_start (htrack : InTrack drive (start dev drive))
    (hlt : firstSector dev drive < size drive) : Follows drive (start dev drive) := by
  have hinside : chsCylinder dev < drive.cfg_cyl.toNat :=
    (linear_lt_iff htrack drive.cfg_cyl.toNat).mp hlt
  have hcfg := drive.cfg_cyl.isLt
  refine ⟨htrack, ?_, hinside⟩
  unfold start
  simp only
  rw [if_neg (Nat.not_le.mpr hinside)]
  exact Nat.mod_eq_of_lt (by omega)

/-- For no count: the controller comes to the end of its addresses in time. -/
theorem kept_iff_lost (h0 : sectorCount dev = 0) :
    Kept dev drive ↔ ∃ k ≤ 256, ¬FoundAt dev drive k := by
  by_cases hstart : InTrack drive (start dev drive) ∧ drive.present = true
  · obtain ⟨htrack, hp⟩ := hstart
    unfold Kept FoundAt positionAt
    simp only [htrack, hp, h0, if_true, true_implies]
    by_cases ht : dev.type = ST506_XT_TYPE_TOSHIBA_T3200
    · simp only [ht, true_and]
      refine exists_congr fun k => and_congr_right fun _ => ?_
      rw [found_t3200 rfl htrack k]
      change _ ↔ ¬(_ ∧ firstSector dev drive + k < _ ∧ Physical drive (firstSector dev drive + k))
      have hsize := Nat.not_lt (a := firstSector dev drive + k) (b := size drive)
      tauto
    · simp only [ht, false_and, false_iff]
      rintro ⟨k, -, hlost⟩
      exact hlost ((found_other ht htrack k).mpr hp)
  · refine iff_of_true (fun htrack hp => absurd ⟨htrack, hp⟩ hstart) ?_
    exact ⟨0, Nat.zero_le _, not_foundAt_zero hstart⟩

/-- For a count: the controller finds the sectors that are named, and then no other one. -/
theorem kept_iff_found (h0 : sectorCount dev ≠ 0) :
    Kept dev drive ↔
      (∀ i < (named dev drive).length,
        FoundAt dev drive i ∧ sectorAt dev drive i = firstSector dev drive + i) ∧
      ((named dev drive).length < sectorCount dev →
        ¬FoundAt dev drive (named dev drive).length) := by
  by_cases hstart : InTrack drive (start dev drive) ∧ drive.present = true
  · obtain ⟨htrack, hp⟩ := hstart
    have hlength := length_named htrack hp
    unfold Kept FoundAt sectorAt positionAt
    simp only [htrack, hp, if_neg h0, true_implies]
    by_cases ht : dev.type = ST506_XT_TYPE_TOSHIBA_T3200
    · rw [if_pos ht]
      constructor
      · intro hphysical
        refine ⟨fun i hi => ⟨?_, lba_t3200 ht htrack i⟩, fun hlt hfound => ?_⟩
        · have hin : firstSector dev drive + i < size drive := by omega
          exact (found_t3200 ht htrack i).mpr ⟨hp, hin, hphysical i (by omega) hin⟩
        · obtain ⟨-, hin, -⟩ := (found_t3200 ht htrack _).mp hfound
          change firstSector dev drive + _ < _ at hin
          omega
      · rintro ⟨hall, -⟩ k hk hin
        obtain ⟨-, -, hphysical⟩ := (found_t3200 ht htrack k).mp (hall k (by omega)).1
        exact hphysical
    · rw [if_neg ht]
      have hfound : ∀ k, Found dev.type drive (walk dev.type drive (start dev drive) k).place :=
        fun k => (found_other ht htrack k).mpr hp
      constructor
      · intro hle
        refine ⟨fun i hi => ⟨hfound i, ?_⟩, fun hlt => by omega⟩
        have hfirst : firstSector dev drive < size drive := by omega
        refine (lba_other (follows_start htrack hfirst) i ?_).2
        change firstSector dev drive + i < _
        omega
      · rintro ⟨-, hend⟩
        by_contra hgt
        exact hend (by omega) (hfound _)
  · rw [named_nil hstart]
    refine iff_of_true (fun htrack hp => absurd ⟨htrack, hp⟩ hstart) ⟨nofun, fun _ => ?_⟩
    exact not_foundAt_zero hstart

end

end blumach.hdc_st506_xt
