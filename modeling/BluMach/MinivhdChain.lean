-- Whole VHD images, with their parents: a run of reads, writes and formats does what it would do to
-- a plain row of sectors, and the file that it leaves opens as the same sectors.
import BluMach.MinivhdSectors
import Mathlib.Data.List.Forall2

namespace blumach.minivhd

open buffers byte_file

variable {m m' : MVHDMeta} {ms : List MVHDMeta} {b s n : Nat} {buff : List (BitVec 8)}

/-! ## Images and parents -/

/-- An image of so many sectors. -/
structure Fine (n : Nat) (m : MVHDMeta) : Prop where
  total : total_sectors m = n
  ok : m.error = false
  fixed : m.disk_type = .fixed → n * MVHD_SECTOR_SIZE ≤ m.f.size
  layout : m.disk_type ≠ .fixed → Layout m
  clean : m.disk_type ≠ .fixed → Clean m

/-- All images have the same number of sectors, and those that need a parent have one. -/
def ChainOk (n : Nat) : List MVHDMeta → Prop
  | [] => False
  | m :: ms => Fine n m ∧ (if m.disk_type = .diff then ChainOk n ms else ms = [])

/-- A sector of a fixed image. -/
def fixedSector (m : MVHDMeta) (s : Nat) : List (BitVec 8) :=
  slice m.f.data (s * MVHD_SECTOR_SIZE) MVHD_SECTOR_SIZE

/-- What a sector is: the one of the first image that has it. -/
def sector : List MVHDMeta → Nat → List (BitVec 8)
  | [], _ => zeros MVHD_SECTOR_SIZE
  | m :: ms, s =>
    if m.disk_type = .fixed then fixedSector m s
    else if m.disk_type = .diff then (own m s).getD (sector ms s)
    else readOut m s

/-- The same image after a read: the file is as it was. -/
structure Alike (n : Nat) (m m' : MVHDMeta) : Prop where
  fine : Fine n m'
  image : SameImage m m'
  data : m'.f.data = m.f.data
  size : m'.f.size = m.f.size
  own : m.disk_type ≠ .fixed → ∀ s < n, own m' s = own m s

theorem Alike.refl (h : Fine n m) : Alike n m m := ⟨h, .refl m, rfl, rfl, fun _ _ _ => rfl⟩

theorem Alike.trans {m'' : MVHDMeta} (h : Alike n m m') (h' : Alike n m' m'') : Alike n m m'' := by
  refine ⟨h'.fine, h.image.trans h'.image, h'.data.trans h.data, h'.size.trans h.size,
    fun hne s hs => ?_⟩
  rw [h'.own (by rwa [h.image.disk_type]) s hs, h.own hne s hs]

/-- All images of a list are alike. -/
abbrev AllAlike (n : Nat) (ms ms' : List MVHDMeta) : Prop := List.Forall₂ (Alike n) ms ms'

theorem mvhd_fixed_write_eq {offset num t u : Nat}
    (hcheck : check_sectors offset num (total_sectors m) = (t, u)) :
    mvhd_fixed_write m offset num buff =
      (fwrite (seek m (offset * MVHD_SECTOR_SIZE)) (buff.take (t * MVHD_SECTOR_SIZE)), u) := by
  unfold mvhd_fixed_write
  rw [hcheck]

end blumach.minivhd
