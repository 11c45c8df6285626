-- The law of the IDE writes: the sector-by-sector commands store what the DMA
-- command stores just when the registers count the sectors as an odometer does.
import BluMach.HdcIde
import BluMach.Odometer
import Mathlib.Logic.Function.Iterate

namespace blumach.hdc_ide

open odometer

/-! ## The registers that name a sector -/

structure Registers where
  lba : Bool
  lba_addr : BitVec 32
  cylinder : BitVec 16
  head : BitVec 4
  sector : BitVec 8
  cfg_spt : BitVec 32
  cfg_hpc : BitVec 32

def registers (ide : Ide) : Registers :=
  ⟨ide.tf.lba, ide.lba_addr, ide.tf.cylinder, ide.tf.head, ide.tf.sector, ide.cfg_spt, ide.cfg_hpc⟩

section

variable {ide other : Ide}

theorem get_sector_congr (h : registers ide = registers other) :
    ide_get_sector ide = ide_get_sector other := by
  simp only [registers, Registers.mk.injEq] at h
  obtain ⟨h1, h2, h3, h4, h5, h6, h7⟩ := h
  simp only [ide_get_sector, Tf.index, h1, h2, h3, h4, h5, h6, h7]

theorem registers_next (h : registers ide = registers other) :
    registers (ide_next_sector ide) = registers (ide_next_sector other) := by
  simp only [registers, Registers.mk.injEq] at h
  obtain ⟨h1, h2, h3, h4, h5, h6, h7⟩ := h
  unfold ide_next_sector
  simp only [h1, h5, h4, h6, h7]
  split_ifs <;> simp only [registers, h2, h3]

theorem registers_iterate (h : registers ide = registers other) (k : Nat) :
    registers (ide_next_sector^[k] ide) = registers (ide_next_sector^[k] other) := by
  induction k with
  | zero => exact h
  | succ k ih =>
    rw [Function.iterate_succ_apply', Function.iterate_succ_apply']
    exact registers_next ih

end

/-- The address of a sector of the sector-by-sector path. -/
def address (ide : Ide) (k : Nat) : Nat := ide_get_sector (ide_next_sector^[k] ide)

theorem address_congr {ide other : Ide} (h : registers ide = registers other) (k : Nat) :
    address ide k = address other k :=
  get_sector_congr (registers_iterate h k)

theorem address_next (ide : Ide) (k : Nat) :
    address (ide_next_sector ide) k = address ide (k + 1) := rfl

theorem get_last_sector_eq (ide : Ide) :
    ide_get_last_sector ide = ide_get_sector ide + (ide.tf.count - 1) := by
  unfold ide_get_last_sector ide_get_sector
  cases ide.tf.lba <;> rfl

theorem count_bounds (tf : Tf) : 1 ≤ tf.count ∧ tf.count ≤ 256 := by
  have hlt := tf.secount.isLt
  unfold Tf.count
  split_ifs with h
  · have hpos : tf.secount.toNat ≠ 0 := fun h0 => h (BitVec.eq_of_toNat_eq h0)
    omega
  · omega

/-! ## What one step does to the registers -/

section

variable {ide : Ide}

theorem back_to_8 (x : BitVec 8) : (x.setWidth 32).setWidth 8 = x :=
  (BitVec.setWidth_setWidth_of_le x (by decide)).trans (BitVec.setWidth_eq x)

theorem back_to_4 (x : BitVec 4) : (x.setWidth 32).setWidth 4 = x :=
  (BitVec.setWidth_setWidth_of_le x (by decide)).trans (BitVec.setWidth_eq x)

theorem up_to_8 (x : BitVec 8) : (x.setWidth 32 + 1).setWidth 8 = x + 1 := by
  rw [BitVec.setWidth_add _ _ (by decide), back_to_8]
  rfl

theorem up_to_4 (x : BitVec 4) : (x.setWidth 32 + 1).setWidth 4 = x + 1 := by
  rw [BitVec.setWidth_add _ _ (by decide), back_to_4]
  rfl

end

/-- The registers name another cylinder, head and sector. -/
def Ide.moveTo (ide : Ide) (cylinder : BitVec 16) (head : BitVec 4) (sector : BitVec 8) : Ide :=
  { ide with tf := { ide.tf with cylinder := cylinder, head := head, sector := sector } }

section

variable (ide : Ide) (c : BitVec 16) (h : BitVec 4) (s : BitVec 8)

@[simp] theorem moveTo_head : (ide.moveTo c h s).tf.head = h := rfl

@[simp] theorem moveTo_sector : (ide.moveTo c h s).tf.sector = s := rfl

@[simp] theorem moveTo_cfg_spt : (ide.moveTo c h s).cfg_spt = ide.cfg_spt := rfl

@[simp] theorem moveTo_cfg_hpc : (ide.moveTo c h s).cfg_hpc = ide.cfg_hpc := rfl

end

section

variable {ide : Ide}

theorem next_lba (h : ide.tf.lba = true) :
    ide_next_sector ide = { ide with lba_addr := ide.lba_addr + 1 } := by
  unfold ide_next_sector
  rw [if_pos h, back_to_8, back_to_4]

/-- `sector == ide->cfg_spt + 1`, where the other test never holds. -/
theorem last_of_track (hspt : ide.cfg_spt.toNat ≤ 256) :
    (ide.tf.sector.setWidth 32 + 1 = 0 ∨ ide.tf.sector.setWidth 32 + 1 = ide.cfg_spt + 1) ↔
      ide.tf.sector.toNat = ide.cfg_spt.toNat := by
  have hlt := ide.tf.sector.isLt
  rw [← BitVec.toNat_inj, ← BitVec.toNat_inj, BitVec.toNat_add, BitVec.toNat_add,
    BitVec.toNat_setWidth]
  change (_ + 1) % _ = 0 ∨ (_ + 1) % _ = (_ + 1) % _ ↔ _
  omega

theorem last_head (hhpc : ide.cfg_hpc.toNat ≤ 16) :
    ide.tf.head.setWidth 32 + 1 = ide.cfg_hpc ↔ ide.tf.head.toNat + 1 = ide.cfg_hpc.toNat := by
  have hlt := ide.tf.head.isLt
  rw [← BitVec.toNat_inj, BitVec.toNat_add, BitVec.toNat_setWidth]
  change (_ + 1) % _ = _ ↔ _
  omega

/-- The sector is not the last of its track. -/
theorem next_within (h : ide.tf.lba = false) (hspt : ide.cfg_spt.toNat ≤ 256)
    (hs : ide.tf.sector.toNat ≠ ide.cfg_spt.toNat) :
    ide_next_sector ide = ide.moveTo ide.tf.cylinder ide.tf.head (ide.tf.sector + 1) := by
  unfold ide_next_sector Ide.moveTo
  simp only [h, Bool.false_eq_true, if_false, last_of_track hspt, hs, up_to_8, back_to_4]

/-- The sector is the last of its track, but not of its cylinder. -/
theorem next_head (h : ide.tf.lba = false) (hspt : ide.cfg_spt.toNat ≤ 256)
    (hhpc : ide.cfg_hpc.toNat ≤ 16) (hs : ide.tf.sector.toNat = ide.cfg_spt.toNat)
    (hh : ide.tf.head.toNat + 1 ≠ ide.cfg_hpc.toNat) :
    ide_next_sector ide = ide.moveTo ide.tf.cylinder (ide.tf.head + 1) 1 := by
  unfold ide_next_sector Ide.moveTo
  simp only [h, Bool.false_eq_true, if_false, last_of_track hspt, hs, if_true, last_head hhpc, hh,
    up_to_4]
  rfl

/-- The sector is the last of its cylinder. -/
theorem next_cylinder (h : ide.tf.lba = false) (hspt : ide.cfg_spt.toNat ≤ 256)
    (hhpc : ide.cfg_hpc.toNat ≤ 16) (hs : ide.tf.sector.toNat = ide.cfg_spt.toNat)
    (hh : ide.tf.head.toNat + 1 = ide.cfg_hpc.toNat) :
    ide_next_sector ide = ide.moveTo (ide.tf.cylinder + 1) 0 1 := by
  unfold ide_next_sector Ide.moveTo
  simp only [h, Bool.false_eq_true, if_false, last_of_track hspt, hs, if_true, last_head hhpc, hh]
  rfl

end

/-! ## How far the registers count

A geometry that was set by WIN_SPECIFY has 1 to 256 sectors in a track and 1 to 16 heads. -/

/-- The geometry is one that WIN_SPECIFY sets. -/
def Specified (ide : Ide) : Prop :=
  ∃ before : Ide, ide.cfg_spt = (win_specify before).cfg_spt ∧
    ide.cfg_hpc = (win_specify before).cfg_hpc

theorem specified_bounds {ide : Ide} (h : Specified ide) :
    1 ≤ ide.cfg_spt.toNat ∧ ide.cfg_spt.toNat ≤ 256 ∧ 1 ≤ ide.cfg_hpc.toNat ∧
      ide.cfg_hpc.toNat ≤ 16 := by
  obtain ⟨before, hspt, hhpc⟩ := h
  have hcount := before.tf.secount.isLt
  have hhead := before.tf.head.isLt
  have hheads : ide.cfg_hpc.toNat = before.tf.head.toNat + 1 := by
    rw [hhpc]
    change (before.tf.head.setWidth 32 + 1).toNat = _
    rw [BitVec.toNat_add, BitVec.toNat_setWidth]
    change (_ + 1) % _ = _
    omega
  have hsectors : ide.cfg_spt.toNat = before.tf.count := by
    rw [hspt]
    unfold win_specify Tf.count
    by_cases h0 : before.tf.secount = 0
    · simp [h0]
    · simp only [h0, if_false, ne_eq, not_false_iff, if_true, BitVec.toNat_setWidth]
      omega
  have hbounds := count_bounds before.tf
  omega

/-- The place in the order of sectors that the registers name. -/
def start (ide : Ide) : Place :=
  ⟨ide.tf.cylinder.toNat, ide.tf.head.toNat, ide.tf.sector.toNat - 1⟩

/-- How many sectors from here on the registers count in order: up to the end of the last cylinder
if they start inside the geometry, to the end of the 16 heads if the head is beyond it, and to the
end of the sector register if the sector is beyond the track. Sector 0 is the same as sector 1. -/
def sectorsCounted (ide : Ide) : Nat :=
  let spt := ide.cfg_spt.toNat
  let hpc := ide.cfg_hpc.toNat
  let p := start ide
  if ide.tf.sector = 0 then 1
  else if ide.tf.sector.toNat ≤ spt ∧ spt ≤ 255 then
    if p.head < hpc then 65536 * hpc * spt - linear hpc spt p
    else 16 * spt - linear 16 spt ⟨0, p.head, p.sector⟩
  else 256 - ide.tf.sector.toNat

section

variable {ide : Ide}

theorem index_toNat (tf : Tf) : tf.index.toNat = tf.sector.toNat - 1 := by
  have hlt := tf.sector.isLt
  unfold Tf.index
  split_ifs with h
  · have hpos : tf.sector.toNat ≠ 0 := fun h0 => h (BitVec.eq_of_toNat_eq h0)
    rw [BitVec.toNat_sub]
    change (256 - 1 + _) % 256 = _
    omega
  · have hzero : tf.sector = 0 := not_not.mp h
    rw [hzero]
    rfl

theorem get_sector_chs (h : ide.tf.lba = false) :
    ide_get_sector ide = linear ide.cfg_hpc.toNat ide.cfg_spt.toNat (start ide) := by
  unfold ide_get_sector linear start
  rw [h, index_toNat]
  rfl

theorem toNat_succ {w : Nat} (x : BitVec w) (hw : 0 < w) :
    (x + 1).toNat = if x.toNat + 1 = 2 ^ w then 0 else x.toNat + 1 := by
  have hlt := x.isLt
  have h1 : (1 : BitVec w).toNat = 1 := BitVec.toNat_one hw
  rw [BitVec.toNat_add, h1]
  split_ifs with h
  · rw [h, Nat.mod_self]
  · exact Nat.mod_eq_of_lt (by omega)

/-- Away from the end of the track the sector register just counts. -/
theorem iterate_within (h : ide.tf.lba = false) (hspt : ide.cfg_spt.toNat ≤ 256) {k : Nat}
    (hk : ∀ j < k, (ide.tf.sector.toNat + j) % 256 ≠ ide.cfg_spt.toNat) :
    ide_next_sector^[k] ide =
      ide.moveTo ide.tf.cylinder ide.tf.head (ide.tf.sector + BitVec.ofNat 8 k) := by
  induction k with
  | zero => simp [Ide.moveTo]
  | succ k ih =>
    have hstep := @next_within
      (ide.moveTo ide.tf.cylinder ide.tf.head (ide.tf.sector + BitVec.ofNat 8 k)) h hspt (by
        simp only [moveTo_sector, moveTo_cfg_spt, BitVec.toNat_add, BitVec.toNat_ofNat,
          Nat.add_mod_mod]
        exact hk k (by omega))
    rw [Function.iterate_succ_apply', ih fun j hj => hk j (by omega), hstep, BitVec.ofNat_add,
      ← BitVec.add_assoc]
    rfl

theorem get_sector_moveTo (h : ide.tf.lba = false) (cylinder : BitVec 16) (head : BitVec 4)
    (sector : BitVec 8) :
    ide_get_sector (ide.moveTo cylinder head sector) =
      linear ide.cfg_hpc.toNat ide.cfg_spt.toNat
        ⟨cylinder.toNat, head.toNat, sector.toNat - 1⟩ :=
  get_sector_chs h

/-- From sector 0 the second sector is the first one again. -/
theorem counted_zero (h : ide.tf.lba = false) (hspec : Specified ide) (h0 : ide.tf.sector = 0) :
    address ide 1 = address ide 0 := by
  obtain ⟨h1, hspt, -, -⟩ := specified_bounds hspec
  have hstep := next_within h hspt (by rw [h0]; exact fun hs => by simp at hs; omega)
  change ide_get_sector (ide_next_sector ide) = ide_get_sector ide
  rw [hstep, get_sector_moveTo h, get_sector_chs h, start, h0]
  rfl

/-- From a sector beyond the track the sector register counts up to its own end. -/
theorem counted_beyond (h : ide.tf.lba = false) (hspec : Specified ide)
    (hpos : ide.tf.sector.toNat ≠ 0)
    (hbeyond : ide.cfg_spt.toNat < ide.tf.sector.toNat ∨ ide.cfg_spt.toNat = 256) :
    (∀ k < 256 - ide.tf.sector.toNat, address ide k = address ide 0 + k) ∧
      address ide (256 - ide.tf.sector.toNat) ≠ address ide 0 + (256 - ide.tf.sector.toNat) := by
  obtain ⟨h1, hspt, -, -⟩ := specified_bounds hspec
  have hlt := ide.tf.sector.isLt
  have hat : ∀ k ≤ 256 - ide.tf.sector.toNat, address ide k =
      linear ide.cfg_hpc.toNat ide.cfg_spt.toNat ⟨ide.tf.cylinder.toNat, ide.tf.head.toNat,
        (ide.tf.sector.toNat + k) % 256 - 1⟩ := fun k hk => by
    rw [address, iterate_within h hspt fun j hj => by omega, get_sector_moveTo h,
      BitVec.toNat_add, BitVec.toNat_ofNat]
    change linear _ _ ⟨_, _, (_ + k % 256) % 256 - 1⟩ = _
    rw [Nat.add_mod_mod]
  have hzero := hat 0 (by omega)
  constructor
  · intro k hk
    rw [hat k (by omega), hzero]
    unfold linear
    dsimp only
    omega
  · rw [hat _ (Nat.le_refl _), hzero]
    unfold linear
    dsimp only
    omega

/-- The registers stand at a place of the geometry. -/
def At (ide other : Ide) (p : Place) : Prop :=
  ∃ (c : BitVec 16) (h : BitVec 4) (s : BitVec 8), other = ide.moveTo c h s ∧
    p = ⟨c.toNat, h.toNat, s.toNat - 1⟩ ∧ s.toNat ≠ 0

theorem at_step (hlba : ide.tf.lba = false) (hspec : Specified ide)
    (hspt : ide.cfg_spt.toNat ≤ 255) (other : Ide) (p : Place)
    (hvalid : Valid ide.cfg_hpc.toNat ide.cfg_spt.toNat p) (hat : At ide other p) :
    At ide (ide_next_sector other)
      { advance ide.cfg_hpc.toNat ide.cfg_spt.toNat p with
        cylinder := (advance ide.cfg_hpc.toNat ide.cfg_spt.toNat p).cylinder % 65536 } := by
  obtain ⟨-, hspt256, -, hhpc⟩ := specified_bounds hspec
  obtain ⟨c, h, s, rfl, rfl, hs0⟩ := hat
  obtain ⟨hhead, hsector⟩ := hvalid
  have hs := toNat_succ s (by decide)
  have hh := toNat_succ h (by decide)
  have hc := toNat_succ c (by decide)
  have hc16 := c.isLt
  dsimp only at hhead hsector
  unfold advance
  split_ifs with h1 h2 <;> dsimp only at *
  · rw [@next_within (ide.moveTo c h s) hlba hspt256 (by
      simp only [moveTo_sector, moveTo_cfg_spt]
      omega)]
    refine ⟨c, h, s + 1, rfl, ?_, ?_⟩
    · rw [hs, if_neg (by omega), Nat.mod_eq_of_lt hc16, Nat.add_sub_cancel,
        Nat.sub_add_cancel (by omega)]
    · rw [hs, if_neg (by omega)]
      omega
  · rw [@next_head (ide.moveTo c h s) hlba hspt256 hhpc (by
      simp only [moveTo_sector, moveTo_cfg_spt]
      omega) (by
      simp only [moveTo_head, moveTo_cfg_hpc]
      omega)]
    refine ⟨c, h + 1, 1, rfl, ?_, by decide⟩
    rw [hh, if_neg (by omega), Nat.mod_eq_of_lt hc16]
    rfl
  · rw [@next_cylinder (ide.moveTo c h s) hlba hspt256 hhpc (by
      simp only [moveTo_sector, moveTo_cfg_spt]
      omega) (by
      simp only [moveTo_head, moveTo_cfg_hpc]
      omega)]
    refine ⟨c + 1, 0, 1, rfl, ?_, by decide⟩
    rw [BitVec.toNat_add]
    rfl

theorem get_sector_at (hlba : ide.tf.lba = false) {other : Ide} {p : Place} (hat : At ide other p) :
    ide_get_sector other = linear ide.cfg_hpc.toNat ide.cfg_spt.toNat p := by
  obtain ⟨c, h, s, rfl, rfl, -⟩ := hat
  exact get_sector_moveTo hlba c h s

/-- From a place inside the geometry the registers count up to the last cylinder. -/
theorem counted_inside (hlba : ide.tf.lba = false) (hspec : Specified ide)
    (hpos : ide.tf.sector.toNat ≠ 0) (hsector : ide.tf.sector.toNat ≤ ide.cfg_spt.toNat)
    (hspt : ide.cfg_spt.toNat ≤ 255) (hhead : ide.tf.head.toNat < ide.cfg_hpc.toNat) :
    let m := 65536 * ide.cfg_hpc.toNat * ide.cfg_spt.toNat -
      linear ide.cfg_hpc.toNat ide.cfg_spt.toNat (start ide)
    (∀ k < m, address ide k = address ide 0 + k) ∧ address ide m ≠ address ide 0 + m := by
  intro m
  have hvalid : Valid ide.cfg_hpc.toNat ide.cfg_spt.toNat (start ide) := by
    constructor
    · exact hhead
    · unfold start
      dsimp only
      omega
  have hstart : At ide ide (start ide) :=
    ⟨ide.tf.cylinder, ide.tf.head, ide.tf.sector, rfl, rfl, hpos⟩
  have hbelow := (linear_lt_iff hvalid 65536).mpr ide.tf.cylinder.isLt
  have hat : ∀ k < m, At ide (ide_next_sector^[k] ide)
      ((advance ide.cfg_hpc.toNat ide.cfg_spt.toNat)^[k] (start ide)) := fun k hk => by
    refine @lockstep _ _ _ _ ide_next_sector (At ide) 65536 ?_ ide hvalid hstart k (by omega)
    intro other p hp _ hnext hother
    have h := at_step hlba hspec hspt other p hp hother
    rwa [Nat.mod_eq_of_lt hnext] at h
  have haddress : ∀ k < m, address ide k =
      linear ide.cfg_hpc.toNat ide.cfg_spt.toNat (start ide) + k := fun k hk => by
    rw [address, get_sector_at hlba (hat k hk), linear_iterate hvalid]
  have hzero := haddress 0 (by omega)
  refine ⟨fun k hk => by rw [haddress k hk, hzero]; rfl, ?_⟩
  obtain ⟨j, hj⟩ : ∃ j, m = j + 1 := Nat.exists_eq_succ_of_ne_zero (by omega)
  have hlast := at_step hlba hspec hspt _ _ (valid_iterate hvalid j) (hat j (by omega))
  have hwrap := valid_advance (valid_iterate hvalid j)
  obtain ⟨q, hq⟩ : ∃ q, advance ide.cfg_hpc.toNat ide.cfg_spt.toNat
      ((advance ide.cfg_hpc.toNat ide.cfg_spt.toNat)^[j] (start ide)) = q := ⟨_, rfl⟩
  rw [hq] at hlast hwrap
  -- the cylinder register has wrapped, so the address is inside the geometry again
  have hinside : Valid ide.cfg_hpc.toNat ide.cfg_spt.toNat ⟨q.cylinder % 65536, q.head, q.sector⟩ :=
    ⟨hwrap.1, hwrap.2⟩
  have hbound := (linear_lt_iff hinside 65536).mpr (Nat.mod_lt _ (by decide))
  rw [hj, address, Function.iterate_succ_apply', get_sector_at hlba hlast, hzero]
  refine Nat.ne_of_lt (Nat.lt_of_lt_of_eq hbound ?_)
  omega

/-- The registers stand at a head beyond the geometry. -/
def AtAbove (ide other : Ide) (p : Place) : Prop :=
  ∃ (h : BitVec 4) (s : BitVec 8), other = ide.moveTo ide.tf.cylinder h s ∧
    p = ⟨0, h.toNat, s.toNat - 1⟩ ∧ s.toNat ≠ 0 ∧ ide.cfg_hpc.toNat ≤ h.toNat

/-- Beyond the geometry the head goes up to 15, and from there to 0 of the same cylinder. -/
theorem above_step (hlba : ide.tf.lba = false) (hspec : Specified ide)
    (hspt : ide.cfg_spt.toNat ≤ 255) (other : Ide) (p : Place)
    (hvalid : Valid 16 ide.cfg_spt.toNat p) (hat : AtAbove ide other p) :
    if (advance 16 ide.cfg_spt.toNat p).cylinder < 1 then
      AtAbove ide (ide_next_sector other) (advance 16 ide.cfg_spt.toNat p)
    else ide_next_sector other = ide.moveTo ide.tf.cylinder 0 1 := by
  obtain ⟨-, hspt256, -, hhpc⟩ := specified_bounds hspec
  obtain ⟨h, s, rfl, rfl, hs0, hge⟩ := hat
  obtain ⟨hhead, hsector⟩ := hvalid
  have hs := toNat_succ s (by decide)
  have hh := toNat_succ h (by decide)
  dsimp only at hhead hsector
  have hup : s.toNat = ide.cfg_spt.toNat →
      ide_next_sector (ide.moveTo ide.tf.cylinder h s) =
        ide.moveTo ide.tf.cylinder (h + 1) 1 := fun hlast =>
    @next_head (ide.moveTo ide.tf.cylinder h s) hlba hspt256 hhpc hlast (by
      simp only [moveTo_head, moveTo_cfg_hpc]
      omega)
  unfold advance
  dsimp only
  by_cases h1 : s.toNat - 1 + 1 < ide.cfg_spt.toNat
  · rw [if_pos h1, if_pos (by decide : 0 < 1), @next_within (ide.moveTo ide.tf.cylinder h s) hlba
      hspt256 (by
        simp only [moveTo_sector, moveTo_cfg_spt]
        omega)]
    refine ⟨h, s + 1, rfl, ?_, ?_, hge⟩
    · rw [hs, if_neg (by omega), Nat.add_sub_cancel, Nat.sub_add_cancel (by omega)]
    · rw [hs, if_neg (by omega)]
      omega
  · rw [if_neg h1, hup (by omega)]
    by_cases h2 : h.toNat + 1 < 16
    · rw [if_pos h2, if_pos (by decide : 0 < 1)]
      refine ⟨h + 1, 1, rfl, ?_, by decide, ?_⟩
      · rw [hh, if_neg (by omega)]
        rfl
      · rw [hh, if_neg (by omega)]
        omega
    · rw [if_neg h2, if_neg (show ¬0 + 1 < 1 by decide)]
      have hzero : h + 1 = 0 := BitVec.eq_of_toNat_eq (by rw [hh, if_pos (by omega)]; rfl)
      rw [hzero]

theorem get_sector_above (hlba : ide.tf.lba = false) {other : Ide} {p : Place}
    (hat : AtAbove ide other p) :
    ide_get_sector other =
      ide.tf.cylinder.toNat * ide.cfg_hpc.toNat * ide.cfg_spt.toNat +
        linear 16 ide.cfg_spt.toNat p := by
  obtain ⟨h, s, rfl, rfl, -, -⟩ := hat
  rw [get_sector_moveTo hlba]
  unfold linear
  ring

/-- From a head beyond the geometry the registers count up to the end of head 15. -/
theorem counted_above (hlba : ide.tf.lba = false) (hspec : Specified ide)
    (hpos : ide.tf.sector.toNat ≠ 0) (hsector : ide.tf.sector.toNat ≤ ide.cfg_spt.toNat)
    (hspt : ide.cfg_spt.toNat ≤ 255) (hhead : ide.cfg_hpc.toNat ≤ ide.tf.head.toNat) :
    let m := 16 * ide.cfg_spt.toNat -
      linear 16 ide.cfg_spt.toNat ⟨0, (start ide).head, (start ide).sector⟩
    (∀ k < m, address ide k = address ide 0 + k) ∧ address ide m ≠ address ide 0 + m := by
  intro m
  have hvalid : Valid 16 ide.cfg_spt.toNat ⟨0, (start ide).head, (start ide).sector⟩ := by
    constructor
    · exact ide.tf.head.isLt
    · unfold start
      dsimp only
      omega
  have hstart : AtAbove ide ide ⟨0, (start ide).head, (start ide).sector⟩ :=
    ⟨ide.tf.head, ide.tf.sector, rfl, rfl, hpos, hhead⟩
  have hbelow := (linear_lt_iff hvalid 1).mpr Nat.zero_lt_one
  have hat : ∀ k < m, AtAbove ide (ide_next_sector^[k] ide)
      ((advance 16 ide.cfg_spt.toNat)^[k] ⟨0, (start ide).head, (start ide).sector⟩) :=
    fun k hk => by
      refine @lockstep _ _ _ _ ide_next_sector (AtAbove ide) 1 ?_ ide hvalid hstart k (by omega)
      intro other p hp _ hnext hother
      have h := above_step hlba hspec hspt other p hp hother
      rwa [if_pos hnext] at h
  have haddress : ∀ k < m, address ide k =
      ide.tf.cylinder.toNat * ide.cfg_hpc.toNat * ide.cfg_spt.toNat +
        (linear 16 ide.cfg_spt.toNat ⟨0, (start ide).head, (start ide).sector⟩ + k) :=
    fun k hk => by rw [address, get_sector_above hlba (hat k hk), linear_iterate hvalid]
  have hzero := haddress 0 (by omega)
  refine ⟨fun k hk => by rw [haddress k hk, hzero]; omega, ?_⟩
  obtain ⟨j, hj⟩ : ∃ j, m = j + 1 := Nat.exists_eq_succ_of_ne_zero (by omega)
  have hq := valid_iterate hvalid j
  have hlast := above_step hlba hspec hspt _ _ hq (hat j (by omega))
  have hlinear := linear_advance hq
  rw [linear_iterate hvalid] at hlinear
  rw [if_neg (fun h1 => by
    have hlt := (linear_lt_iff (valid_advance hq) 1).mpr h1
    omega)] at hlast
  have hback : linear ide.cfg_hpc.toNat ide.cfg_spt.toNat
      ⟨ide.tf.cylinder.toNat, (0 : BitVec 4).toNat, (1 : BitVec 8).toNat - 1⟩ =
        ide.tf.cylinder.toNat * ide.cfg_hpc.toNat * ide.cfg_spt.toNat := by
    simp [linear]
  rw [hj, address, Function.iterate_succ_apply', hlast, get_sector_moveTo hlba, hback, hzero]
  omega

end

/-- The sectors of the command are in order, and the last one is the one that was checked. -/
def Consecutive (ide : Ide) : Prop :=
  (∀ k < ide.tf.count, address ide k = ide_get_sector ide + k) ∧
    address ide (ide.tf.count - 1) = ide_get_last_sector ide

/-- The registers are an LBA address, or count as many sectors as the command has. -/
def OnPath (ide : Ide) : Prop := ide.tf.lba = true ∨ ide.tf.count ≤ sectorsCounted ide

instance (ide : Ide) : Decidable (OnPath ide) := inferInstanceAs (Decidable (_ ∨ _))

section

variable {ide : Ide} {last : BitVec 32}

theorem counted (hlba : ide.tf.lba = false) (hspec : Specified ide) :
    (∀ k < sectorsCounted ide, address ide k = address ide 0 + k) ∧
      address ide (sectorsCounted ide) ≠ address ide 0 + sectorsCounted ide := by
  have hspt := (specified_bounds hspec).2.1
  have hpos : ide.tf.sector ≠ 0 → ide.tf.sector.toNat ≠ 0 := fun h h0 =>
    h (BitVec.eq_of_toNat_eq h0)
  unfold sectorsCounted
  dsimp only
  split_ifs with h0 htrack hhead
  · refine ⟨fun k hk => by rw [Nat.lt_one_iff.mp hk, Nat.add_zero], ?_⟩
    rw [counted_zero hlba hspec h0]
    omega
  · exact counted_inside hlba hspec (hpos h0) htrack.1 htrack.2 hhead
  · exact counted_above hlba hspec (hpos h0) htrack.1 htrack.2 (Nat.le_of_not_lt hhead)
  · exact counted_beyond hlba hspec (hpos h0) (by omega)

/-- An LBA address goes up by one. The range check keeps it from wrapping. -/
theorem address_lba (hlba : ide.tf.lba = true) {k : Nat} (hk : ide.lba_addr.toNat + k < 2 ^ 32) :
    address ide k = ide_get_sector ide + k := by
  have hregs : ide_next_sector^[k] ide =
      { ide with lba_addr := ide.lba_addr + BitVec.ofNat 32 k } := by
    clear hk
    induction k with
    | zero => simp
    | succ k ih =>
      have hstep := @next_lba { ide with lba_addr := ide.lba_addr + BitVec.ofNat 32 k } hlba
      rw [Function.iterate_succ_apply', ih, hstep, BitVec.ofNat_add, ← BitVec.add_assoc]
      rfl
  rw [address, hregs]
  unfold ide_get_sector
  rw [if_pos hlba, if_pos hlba, BitVec.toNat_add, BitVec.toNat_ofNat, Nat.add_mod_mod,
    Nat.mod_eq_of_lt hk]

theorem in_range (hrange : outOfRange last ide = false) :
    (ide.tf.lba = true ∨ ide.cfg_spt ≠ 0) ∧ ide_get_sector ide ≤ last.toNat ∧
      ide_get_last_sector ide ≤ last.toNat := by
  simp only [outOfRange, Bool.or_eq_false_iff, Bool.and_eq_false_iff, Bool.not_eq_false',
    decide_eq_false_iff_not, Nat.not_lt] at hrange
  exact ⟨hrange.1.1, hrange.1.2, hrange.2⟩

/-- The sectors are in order just when the registers count as many as the command has. -/
theorem in_order_iff (hspec : Specified ide) (hrange : outOfRange last ide = false) :
    (∀ k < ide.tf.count, address ide k = ide_get_sector ide + k) ↔ OnPath ide := by
  obtain ⟨-, -, hlast⟩ := in_range hrange
  have hcount := count_bounds ide.tf
  cases hlba : ide.tf.lba with
  | true =>
    refine iff_of_true (fun k hk => ?_) (Or.inl hlba)
    rw [get_last_sector_eq, ide_get_sector, if_pos hlba] at hlast
    have hlt := last.isLt
    exact address_lba hlba (by omega)
  | false =>
    obtain ⟨hbelow, hat⟩ := counted hlba hspec
    refine (counted_iff hbelow hat ide.tf.count).trans (or_iff_right ?_).symm
    rw [hlba]
    exact Bool.false_ne_true

theorem consecutive_iff (hspec : Specified ide) (hrange : outOfRange last ide = false) :
    Consecutive ide ↔ OnPath ide := by
  have hcount := count_bounds ide.tf
  refine Iff.trans ⟨fun h => h.1, fun h => ⟨h, ?_⟩⟩ (in_order_iff hspec hrange)
  rw [h _ (by omega), get_last_sector_eq]

end

/-! ## What is stored -/

section

variable {last : BitVec 32} {ide : Ide} {image : Image} (command : PioCommand)

/-- The drive takes the command. -/
def Accepts (ide : Ide) : Prop :=
  ide.type ≠ .IDE_ATAPI ∧ (command = .WIN_WRITE_MULTIPLE → ide.blocksize ≠ 0)

instance (ide : Ide) : Decidable (Accepts command ide) := inferInstanceAs (Decidable (_ ∧ _))

/-- A sector that is in range is stored, and the registers and the count are left to `sectorDone`.
-/
theorem callback_eq (haccepts : Accepts command ide) (hrange : outOfRange last ide = false)
    (data : Sector) :
    ∃ other : Ide, command.callback last data ide image =
        sectorDone other (hdd_image_write (ide_get_sector ide) [data] image) ∧
      registers other = registers ide ∧ other.tf.secount = ide.tf.secount ∧
      other.type = ide.type ∧ other.blocksize = ide.blocksize := by
  obtain ⟨htype, hblock⟩ := haccepts
  cases command with
  | WIN_WRITE =>
    refine ⟨ide, ?_, rfl, rfl, rfl, rfl⟩
    simp only [PioCommand.callback, win_write, htype, hrange, if_false, Bool.false_eq_true]
  | WIN_WRITE_MULTIPLE =>
    have hblocks := hblock rfl
    simp only [PioCommand.callback, win_write_multiple, htype, hblocks, hrange, or_self, if_false,
      Bool.false_eq_true]
    refine ⟨_, rfl, ?_⟩
    split_ifs <;> exact ⟨rfl, rfl, rfl, rfl⟩

theorem count_pred (tf : Tf) (h : tf.secount - 1 ≠ 0) :
    { tf with secount := tf.secount - 1 }.count = tf.count - 1 := by
  have hlt := tf.secount.isLt
  unfold Tf.count
  dsimp only
  rw [if_pos h, BitVec.toNat_sub]
  change (2 ^ 8 - 1 + _) % 2 ^ 8 = _
  split_ifs with h0
  · have hpos : tf.secount.toNat ≠ 0 := fun hz => h0 (BitVec.eq_of_toNat_eq hz)
    omega
  · have hz : tf.secount = 0 := not_not.mp h0
    rw [hz]
    rfl

theorem count_last (tf : Tf) (h : tf.secount - 1 = 0) : tf.count = 1 := by
  have h1 : tf.secount = 1 := BitVec.sub_eq_iff_eq_add.mp h
  unfold Tf.count
  rw [h1]
  rfl

theorem next_keeps (ide : Ide) :
    (ide_next_sector ide).tf.lba = ide.tf.lba ∧ (ide_next_sector ide).cfg_spt = ide.cfg_spt ∧
      (ide_next_sector ide).tf.secount = ide.tf.secount ∧
      (ide_next_sector ide).type = ide.type ∧
      (ide_next_sector ide).blocksize = ide.blocksize := by
  unfold ide_next_sector
  dsimp only
  split_ifs <;> exact ⟨rfl, rfl, rfl, rfl, rfl⟩

/-- A sector that is not the last leaves the registers at the next one. -/
theorem callback_more (haccepts : Accepts command ide) (hrange : outOfRange last ide = false)
    (data : Sector) (hmore : ide.tf.secount - 1 ≠ 0) :
    ∃ next : Ide, command.callback last data ide image =
        ⟨next, hdd_image_write (ide_get_sector ide) [data] image, true⟩ ∧
      registers next = registers (ide_next_sector ide) ∧ next.tf.count = ide.tf.count - 1 ∧
      Accepts command next := by
  obtain ⟨other, hcall, hregs, hsecount, htype, hblock⟩ :=
    @callback_eq last ide image command haccepts hrange data
  have hmore' : other.tf.secount - 1 ≠ 0 := by rwa [hsecount]
  let other' : Ide := { other with tf := { other.tf with
    secount := other.tf.secount - 1
    atastat := DRQ_STAT ||| DRDY_STAT ||| DSC_STAT
    pos := 0 } }
  obtain ⟨-, -, hs, ht, hb⟩ := next_keeps other'
  refine ⟨ide_next_sector other', ?_, @registers_next _ ide hregs, ?_, ?_⟩
  · rw [hcall]
    exact if_pos hmore'
  · rw [← count_pred ide.tf hmore]
    simp only [Tf.count, hs, ← hsecount]
    rfl
  · unfold Accepts
    rw [ht, hb]
    exact ⟨htype.trans_ne haccepts.1, fun h => hblock.trans_ne (haccepts.2 h)⟩

theorem callback_last (haccepts : Accepts command ide) (hrange : outOfRange last ide = false)
    (data : Sector) (hlast : ide.tf.secount - 1 = 0) :
    (command.callback last data ide image).more = false ∧
      (command.callback last data ide image).image =
        hdd_image_write (ide_get_sector ide) [data] image := by
  obtain ⟨other, hcall, -, hsecount, -, -⟩ :=
    @callback_eq last ide image command haccepts hrange data
  have hlast' : ¬other.tf.secount - 1 ≠ 0 := by
    rw [hsecount]
    exact not_not.mpr hlast
  rw [hcall]
  unfold sectorDone
  dsimp only
  rw [if_neg hlast']
  exact ⟨rfl, rfl⟩

/-- The range check passes at the next sector, when that is the next address. -/
theorem range_next {next : Ide} (hrange : outOfRange last ide = false)
    (hregs : registers next = registers (ide_next_sector ide))
    (hcount : next.tf.count = ide.tf.count - 1) (hmore : 2 ≤ ide.tf.count)
    (haddress : address ide 1 = ide_get_sector ide + 1) : outOfRange last next = false := by
  obtain ⟨hvalid, -, hlast⟩ := in_range hrange
  obtain ⟨hlba, hspt, -⟩ := next_keeps ide
  have hnext : ide_get_sector next = ide_get_sector ide + 1 :=
    (get_sector_congr hregs).trans haddress
  rw [get_last_sector_eq] at hlast
  have hlba' : next.tf.lba = ide.tf.lba := (congrArg Registers.lba hregs).trans hlba
  have hspt' : next.cfg_spt = ide.cfg_spt := (congrArg Registers.cfg_spt hregs).trans hspt
  simp only [outOfRange, Bool.or_eq_false_iff, Bool.and_eq_false_iff, Bool.not_eq_false',
    decide_eq_false_iff_not, Nat.not_lt, get_last_sector_eq, hnext, hcount, hlba', hspt']
  exact ⟨⟨hvalid, by omega⟩, by omega⟩

/-- Sectors that are in order are stored one after the other. -/
theorem run_in_order {data : List Sector} (haccepts : Accepts command ide)
    (hrange : outOfRange last ide = false) (hlength : data.length = ide.tf.count)
    (horder : ∀ k < ide.tf.count, address ide k = ide_get_sector ide + k) :
    (command.run last data ide image).image =
      hdd_image_write (ide_get_sector ide) data image := by
  have hcount := count_bounds ide.tf
  induction data generalizing ide image with
  | nil => exact absurd hlength (by simp; omega)
  | cons d rest ih =>
    rw [List.length_cons] at hlength
    by_cases hmore : ide.tf.secount - 1 = 0
    · obtain ⟨hstop, himage⟩ := @callback_last last ide image command haccepts hrange d hmore
      have hone := count_last ide.tf hmore
      obtain rfl : rest = [] := List.eq_nil_of_length_eq_zero (by omega)
      rw [PioCommand.run, hstop, if_neg Bool.false_ne_true, himage]
    · obtain ⟨next, hcall, hregs, hnext, hagain⟩ :=
        @callback_more last ide image command haccepts hrange d hmore
      have htwo := count_bounds next.tf
      have hfirst : ide_get_sector next = ide_get_sector ide + 1 :=
        (get_sector_congr hregs).trans (horder 1 (by omega))
      rw [PioCommand.run, hcall]
      change (command.run last rest next _).image = _
      rw [ih hagain (range_next hrange hregs hnext (by omega) (horder 1 (by omega))) (by omega)
        (fun k hk => ?_) htwo, hfirst]
      · rfl
      · rw [address_congr hregs, address_next, horder (k + 1) (by omega), hfirst]
        omega

/-- A turn stores nothing and stops, or stores one sector at the address of the registers. -/
theorem callback_cases (data : Sector) :
    let outcome := command.callback last data ide image
    (outcome.image = image ∧ outcome.more = false) ∨
      (outcome.image = hdd_image_write (ide_get_sector ide) [data] image ∧
        (outcome.more = true → registers outcome.ide = registers (ide_next_sector ide))) := by
  intro outcome
  by_cases haccepts : Accepts command ide
  · cases hrange : outOfRange last ide with
    | true =>
      left
      obtain ⟨htype, hblock⟩ := haccepts
      cases command with
      | WIN_WRITE =>
        simp [outcome, PioCommand.callback, win_write, htype, hrange]
      | WIN_WRITE_MULTIPLE =>
        simp [outcome, PioCommand.callback, win_write_multiple, htype, hblock rfl, hrange]
    | false =>
      right
      by_cases hmore : ide.tf.secount - 1 = 0
      · obtain ⟨hstop, himage⟩ := @callback_last last ide image command haccepts hrange data hmore
        exact ⟨himage, fun h => Bool.noConfusion (hstop.symm.trans h)⟩
      · obtain ⟨next, hcall, hregs, -, -⟩ :=
          @callback_more last ide image command haccepts hrange data hmore
        exact ⟨congrArg Outcome.image hcall,
          fun _ => (congrArg (registers ·.ide) hcall).trans hregs⟩
  · left
    unfold Accepts at haccepts
    cases command with
    | WIN_WRITE =>
      have htype : ide.type = .IDE_ATAPI := by
        by_contra h
        exact haccepts ⟨h, nofun⟩
      simp [outcome, PioCommand.callback, win_write, htype]
    | WIN_WRITE_MULTIPLE =>
      have htype : ide.type = .IDE_ATAPI ∨ ide.blocksize = 0 := by
        by_contra h
        exact haccepts ⟨fun h1 => h (Or.inl h1), fun _ h2 => h (Or.inr h2)⟩
      simp [outcome, PioCommand.callback, win_write_multiple, htype]

theorem write_one (s x : Nat) (d : Sector) :
    hdd_image_write s [d] image x = if x = s then d else image x := by
  change Function.update image s d x = _
  rw [Function.update_apply]

/-- A sector of the image keeps what it has when only that is ever stored there. -/
theorem run_untouched {data : List Sector} {x : Nat} {v : Sector} (himage : image x = v)
    (h : ∀ k d, data[k]? = some d → address ide k = x → d = v) :
    (command.run last data ide image).image x = v := by
  induction data generalizing ide image with
  | nil => exact himage
  | cons d rest ih =>
    rw [PioCommand.run]
    rcases @callback_cases last ide image command d with ⟨hsame, hstop⟩ | ⟨hwrite, hregs⟩
    · rw [if_neg (by rw [hstop]; exact Bool.false_ne_true), hsame]
      exact himage
    · have hnew : (command.callback last d ide image).image x = v := by
        rw [hwrite, write_one]
        split_ifs with hx
        · exact h 0 d rfl hx.symm
        · exact himage
      split_ifs with hmore
      · refine ih hnew fun k e he hk => h (k + 1) e he ?_
        rw [← address_next, ← address_congr (hregs hmore)]
        exact hk
      · exact hnew

theorem write_below {data : List Sector} {s x : Nat} (h : x < s) :
    hdd_image_write s data image x = image x := by
  induction data generalizing s image with
  | nil => rfl
  | cons d rest ih =>
    rw [hdd_image_write, ih (by omega), Function.update_of_ne (by omega)]

theorem write_at {data : List Sector} {s k : Nat} {d : Sector} (h : data[k]? = some d) :
    hdd_image_write s data image (s + k) = d := by
  induction data generalizing s k image with
  | nil => cases h
  | cons e rest ih =>
    cases k with
    | zero =>
      obtain rfl : e = d := Option.some.inj h
      rw [hdd_image_write, write_below (by omega)]
      exact Function.update_self ..
    | succ k =>
      rw [hdd_image_write, show s + (k + 1) = s + 1 + k by omega]
      exact ih h

/-- WIN_WRITE_DMA stores the sectors of the command one after the other. -/
theorem dma_image {data : List Sector} (haccepts : Accepts command ide)
    (hrange : outOfRange last ide = false) (hlength : data.length = ide.tf.count) :
    (win_write_dma last data ide image).image =
      hdd_image_write (ide_get_sector ide) data image := by
  unfold win_write_dma
  rw [if_neg haccepts.1, hrange, if_neg Bool.false_ne_true]
  change hdd_image_write (ide_get_sector ide) (data.take ide.tf.count) image = _
  rw [List.take_of_length_le (by omega)]

end

/-- Whatever the host writes, and whatever the image holds, the command that goes sector by sector
leaves the image that the DMA command leaves. -/
def SameImage (command : PioCommand) (last : BitVec 32) (ide : Ide) : Prop :=
  ∀ (data : List Sector) (image : Image), data.length = ide.tf.count →
    (command.run last data ide image).image = (win_write_dma last data ide image).image

section

variable {last : BitVec 32} {ide : Ide} {command : PioCommand}

/-- A sector that goes astray is missing where DMA stores it. -/
theorem in_order_of_same (haccepts : Accepts command ide) (hrange : outOfRange last ide = false)
    (hsame : SameImage command last ide) :
    ∀ k < ide.tf.count, address ide k = ide_get_sector ide + k := by
  intro k hk
  by_contra hastray
  let zeros : Sector := fun _ => 0
  let ones : Sector := fun _ => 1
  let data := (List.replicate ide.tf.count zeros).set k ones
  have hlength : data.length = ide.tf.count := by simp [data]
  have hk' : data[k]? = some ones := by simp [data, hk]
  have hdma :
      (win_write_dma last data ide fun _ => zeros).image (ide_get_sector ide + k) = ones := by
    rw [dma_image command haccepts hrange hlength]
    exact write_at hk'
  have hpio :
      (command.run last data ide fun _ => zeros).image (ide_get_sector ide + k) = zeros := by
    refine run_untouched command rfl fun j d hj hat => ?_
    have hne : k ≠ j := fun h => hastray (by rw [h]; rw [h] at hat; exact hat)
    rw [List.getElem?_set_ne hne, List.getElem?_replicate] at hj
    split_ifs at hj
    exact (Option.some.inj hj).symm
  rw [hsame data _ hlength, hdma] at hpio
  exact absurd (congrFun hpio 0) (by decide)

theorem same_of_in_order (haccepts : Accepts command ide) (hrange : outOfRange last ide = false)
    (horder : ∀ k < ide.tf.count, address ide k = ide_get_sector ide + k) :
    SameImage command last ide := by
  intro data image hlength
  rw [run_in_order command haccepts hrange hlength horder,
    dma_image command haccepts hrange hlength]

/-- The sector-by-sector commands store what the DMA command stores, at the addresses from the
first to the last one that was checked, just when the registers are an LBA address or count as
many sectors as the command has. -/
theorem pio_stores_what_dma_stores_on_the_path (hspec : Specified ide)
    (haccepts : Accepts command ide) (hrange : outOfRange last ide = false) :
    (SameImage command last ide ↔ OnPath ide) ∧ (Consecutive ide ↔ OnPath ide) :=
  ⟨⟨fun h => (in_order_iff hspec hrange).mp (in_order_of_same haccepts hrange h),
    fun h => same_of_in_order haccepts hrange ((in_order_iff hspec hrange).mpr h)⟩,
    consecutive_iff hspec hrange⟩

end

/-- Two sectors of a drive of 17 sectors and 4 heads, from a sector register. -/
def twoSectors (sector : BitVec 8) : Ide where
  type := .IDE_HDD
  command := 0x30
  tf := ⟨2, 0, 0x58, 0, sector, 0, false, 0⟩
  lba_addr := 0
  cfg_spt := 17
  cfg_hpc := 4
  params_specified := true
  blocksize := 0
  blockcount := 0
  sector_pos := 0

theorem twoSectors_specified (sector : BitVec 8) : Specified (twoSectors sector) :=
  ⟨{ twoSectors 0 with tf := ⟨17, 0, 0, 0, 0, 3, false, 0⟩ }, rfl, rfl⟩

/-- From sector 17 the second sector is the first of the next head. -/
theorem two_sectors_of_two_heads :
    (SameImage .WIN_WRITE 100 (twoSectors 17) ↔ OnPath (twoSectors 17)) ∧
      (Consecutive (twoSectors 17) ↔ OnPath (twoSectors 17)) :=
  pio_stores_what_dma_stores_on_the_path (twoSectors_specified 17) (by decide) (by decide)

/-- From sector 0 the second sector goes where the first one went. -/
theorem two_sectors_from_sector_zero :
    Specified (twoSectors 0) ∧ Accepts .WIN_WRITE (twoSectors 0) ∧
      outOfRange 100 (twoSectors 0) = false ∧ ¬SameImage .WIN_WRITE 100 (twoSectors 0) ∧
      ¬Consecutive (twoSectors 0) := by
  have hastray : address (twoSectors 0) 1 ≠ ide_get_sector (twoSectors 0) + 1 := by decide
  refine ⟨twoSectors_specified 0, by decide, by decide, fun h => ?_, fun h => ?_⟩
  · exact hastray (in_order_of_same (by decide) (by decide) h 1 (by decide))
  · exact hastray (h.1 1 (by decide))

end blumach.hdc_ide
