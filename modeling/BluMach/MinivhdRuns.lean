-- Runs of a VHD image: whatever is read, written and formatted, the image is a plain row of
-- sectors, its parents are as they were, and the file that it leaves opens as the same sectors.
import BluMach.MinivhdChain

namespace blumach.minivhd

open buffers byte_file

variable {m m' : MVHDMeta} {ms ms' : List MVHDMeta} {s n offset num : Nat} {buff : List (BitVec 8)}

/-! ## Reads -/

/-- What is behind the sectors of a fixed image, its footer, is as it was. -/
def SameFooter (n : Nat) (m m' : MVHDMeta) : Prop :=
  m.disk_type = .fixed → m'.f.size = m.f.size ∧
    ∀ i, n * MVHD_SECTOR_SIZE ≤ i → i < m.f.size → m'.f.data i = m.f.data i

theorem SameFooter.of_eq (hsize : m'.f.size = m.f.size) (hdata : m'.f.data = m.f.data) :
    SameFooter n m m' :=
  fun _ => ⟨hsize, fun i _ _ => congrFun hdata i⟩

theorem SameFooter.trans {m'' : MVHDMeta} (himage : SameImage m m') (h : SameFooter n m m')
    (h' : SameFooter n m' m'') : SameFooter n m m'' := by
  intro hfixed
  obtain ⟨hsize, hdata⟩ := h hfixed
  obtain ⟨hsize', hdata'⟩ := h' (himage.disk_type.trans hfixed)
  refine ⟨hsize'.trans hsize, fun i hlow hhigh => ?_⟩
  rw [hdata' i hlow (by omega), hdata i hlow hhigh]

/-- Other sectors after a write. -/
def written (disk : Nat → List (BitVec 8)) (offset num : Nat) (data : List (BitVec 8)) (s : Nat) :
    List (BitVec 8) :=
  if offset ≤ s ∧ s < offset + num then sectorAt data (s - offset) else disk s

/-- A sector of what is written. -/
theorem sectorAt_has {b : Nat → BitVec 8} {p k i : Nat}
    (h : Has b p (buff.take (k * MVHD_SECTOR_SIZE)))
    (hbuff : k * MVHD_SECTOR_SIZE ≤ buff.length) (hi : i < k) :
    slice b (p + i * MVHD_SECTOR_SIZE) MVHD_SECTOR_SIZE = sectorAt buff i := by
  have hpiece : (i + 1) * MVHD_SECTOR_SIZE ≤ k * MVHD_SECTOR_SIZE := Nat.mul_le_mul_right _ hi
  rw [Nat.add_mul, Nat.one_mul] at hpiece
  have hlength : (sectorAt buff i).length = MVHD_SECTOR_SIZE := by
    unfold sectorAt
    rw [List.length_take, List.length_drop]
    omega
  refine List.ext_getElem (by rw [length_slice, hlength]) fun j hj _ => ?_
  rw [length_slice] at hj
  have hget := h (i * MVHD_SECTOR_SIZE + j) (by rw [List.length_take]; omega)
  simp only [getElem_slice, sectorAt, List.getElem_take, List.getElem_drop] at hget ⊢
  rw [Nat.add_assoc, hget]

theorem fixedSector_write {k : Nat} (hn : n * MVHD_SECTOR_SIZE ≤ m.f.size)
    (hbuff : k * MVHD_SECTOR_SIZE ≤ buff.length) (hs : s < n)
    (hm' : m'.f = (m.f.seek (offset * MVHD_SECTOR_SIZE)).fwrite
      (buff.take (k * MVHD_SECTOR_SIZE))) :
    fixedSector m' s = if offset ≤ s ∧ s < offset + k then sectorAt buff (s - offset)
      else fixedSector m s := by
  have hlength : (buff.take (k * MVHD_SECTOR_SIZE)).length = k * MVHD_SECTOR_SIZE := by
    rw [List.length_take]
    omega
  unfold fixedSector
  rw [hm']
  by_cases hin : offset ≤ s ∧ s < offset + k
  · rw [if_pos hin]
    have hhas := File.fwrite_has (m.f.seek (offset * MVHD_SECTOR_SIZE))
      (buff.take (k * MVHD_SECTOR_SIZE))
    rw [← sectorAt_has hhas hbuff (show s - offset < k by omega), File.seek_pos, ← Nat.add_mul,
      show offset + (s - offset) = s by omega]
  · rw [if_neg hin]
    have hlow : s + 1 ≤ offset ∨ offset + k ≤ s := by omega
    have hend : (s + 1) * MVHD_SECTOR_SIZE ≤ n * MVHD_SECTOR_SIZE := Nat.mul_le_mul_right _ hs
    refine slice_congr fun i hi => File.fwrite_outside ?_ ?_
    · rw [Nat.add_mul] at hend
      simp only [File.seek_size]
      omega
    · rw [hlength, File.seek_pos, ← Nat.add_mul]
      rcases hlow with hlow | hlow
      · have hle := Nat.mul_le_mul_right MVHD_SECTOR_SIZE hlow
        rw [Nat.add_mul] at hle
        omega
      · have hle := Nat.mul_le_mul_right MVHD_SECTOR_SIZE hlow
        omega

theorem mvhd_fixed_write_spec {t u : Nat}
    (hcheck : check_sectors offset num (total_sectors m) = (t, u)) (ht : 0 < t)
    (hin : (offset + t) * MVHD_SECTOR_SIZE ≤ m.f.size)
      (hbuff : t * MVHD_SECTOR_SIZE ≤ buff.length) :
    ∃ m', mvhd_fixed_write m offset num buff = (m', u) ∧ SameImage m m' ∧
      m'.f.size = m.f.size ∧ m'.f =
        (m.f.seek (offset * MVHD_SECTOR_SIZE)).fwrite (buff.take (t * MVHD_SECTOR_SIZE)) := by
  have hlength : (buff.take (t * MVHD_SECTOR_SIZE)).length = t * MVHD_SECTOR_SIZE := by
    rw [List.length_take]
    omega
  have hpos : 0 < t * MVHD_SECTOR_SIZE := Nat.mul_pos ht (by decide)
  rw [Nat.add_mul] at hin
  rw [mvhd_fixed_write_eq hcheck, fwrite_eq (List.ne_nil_of_length_pos (by omega))]
  refine ⟨_, rfl, ⟨rfl, rfl, rfl, rfl, rfl, rfl, rfl, rfl, rfl⟩, ?_, rfl⟩
  refine File.fwrite_size_inside ?_
  rw [hlength]
  exact hin

/-- What is written is there, and the rest as it was. -/
structure Wrote (n : Nat) (m m' : MVHDMeta) (ms : List MVHDMeta) (disk : Nat → List (BitVec 8)) :
    Prop where
  chain : ChainOk n (m' :: ms)
  image : SameImage m m'
  there : m'.disk_type ≠ .fixed → ∃ b, m'.curr_block = some b ∧ Allocated m' b
  footer : SameFooter n m m'
  disk : ∀ s < n, sector (m' :: ms) s = disk s

variable (offset num buff) in
theorem mvhd_write_sectors_spec (h : ChainOk n (m :: ms)) (hw : m.readonly = false)
    (hoffset : offset < n) (hnum : 0 < num) (hbuff : num * MVHD_SECTOR_SIZE ≤ buff.length) :
    ∃ m', mvhd_write_sectors (m :: ms) offset num buff =
        some (m' :: ms, num - min num (n - offset)) ∧
      Wrote n m m' ms (written (sector (m :: ms)) offset num buff) := by
  obtain ⟨hfine, hrest⟩ := h
  have htotal := hfine.total
  have hn : n < 0x100000000 := htotal ▸ total_sectors_lt m
  obtain ⟨hcheck, -⟩ := check_sectors_spec (Nat.le_of_lt hoffset) hn
  have hcheck' : check_sectors offset num (total_sectors m) =
      (min num (n - offset), num - min num (n - offset)) := by rw [htotal, hcheck]
  have hpiece : min num (n - offset) * MVHD_SECTOR_SIZE ≤ buff.length :=
    Nat.le_trans (Nat.mul_le_mul_right _ (Nat.min_le_left _ _)) hbuff
  unfold mvhd_write_sectors
  dsimp only
  rw [if_neg (by simp [hw])]
  by_cases hfixed : m.disk_type = .fixed
  · have hsize := hfine.fixed hfixed
    obtain ⟨m', hrun, himage, hsize', hf⟩ := mvhd_fixed_write_spec hcheck' (by omega)
      (Nat.le_trans (Nat.mul_le_mul_right _ (by omega)) hsize) hpiece
    have htype : m'.disk_type = .fixed := himage.disk_type.trans hfixed
    rw [if_pos hfixed, hrun]
    refine ⟨m', rfl, ⟨⟨himage.total.trans htotal, himage.error.trans hfine.ok, fun _ => ?_,
      fun hne => absurd htype hne, fun hne => absurd htype hne⟩, ?_⟩, himage,
      fun hne => absurd htype hne, fun _ => ⟨hsize', fun i hlow hhigh => ?_⟩, fun s hs => ?_⟩
    · rwa [hsize']
    · rwa [himage.disk_type]
    · have hend := Nat.mul_le_mul_right MVHD_SECTOR_SIZE
        (show offset + min num (n - offset) ≤ n by omega)
      rw [Nat.add_mul] at hend
      rw [hf]
      refine File.fwrite_outside hhigh (.inr ?_)
      simp only [File.seek_pos, List.length_take]
      omega
    · unfold written
      simp only [sector, if_pos htype, if_pos hfixed]
      rw [fixedSector_write hsize hpiece hs hf]
      by_cases hboth : offset ≤ s ∧ s < offset + num
      · rw [if_pos hboth, if_pos (by omega)]
      · rw [if_neg hboth, if_neg (by omega)]
  · rw [if_neg hfixed]
    obtain ⟨m', hrun, himage, hlayout, hclean, hthere, hown⟩ := mvhd_sparse_diff_write_spec
      (hfine.layout hfixed) (hfine.clean hfixed) (htotal ▸ hoffset) hnum hbuff
    rw [htotal] at hrun hown
    have hne : m'.disk_type ≠ .fixed := by rwa [himage.disk_type]
    rw [hrun]
    refine ⟨m', rfl, ⟨⟨himage.total.trans htotal, himage.error.trans hfine.ok,
      fun h => absurd h hne, fun _ => hlayout, fun _ => hclean⟩, ?_⟩, himage, fun _ => hthere,
      fun h => absurd h hfixed, fun s hs => ?_⟩
    · rw [himage.disk_type]
      exact hrest
    · unfold written
      simp only [sector, himage.disk_type, if_neg hfixed, readOut, hown s hs]
      by_cases hboth : offset ≤ s ∧ s < offset + num
      · simp only [if_pos hboth, Option.getD_some, ite_self]
      · simp only [if_neg hboth]

/-! ## Formats -/

theorem sectorAt_zeros {k i : Nat} (hi : i < k) :
    sectorAt (zeros (k * MVHD_SECTOR_SIZE)) i = zeros MVHD_SECTOR_SIZE := by
  have hpiece : (i + 1) * MVHD_SECTOR_SIZE ≤ k * MVHD_SECTOR_SIZE := Nat.mul_le_mul_right _ hi
  rw [Nat.add_mul, Nat.one_mul] at hpiece
  unfold sectorAt zeros
  rw [List.drop_replicate, List.take_replicate]
  congr 1
  omega

/-- Sectors after a format. -/
def blanked (disk : Nat → List (BitVec 8)) (offset num s : Nat) : List (BitVec 8) :=
  if offset ≤ s ∧ s < offset + num then zeros MVHD_SECTOR_SIZE else disk s

variable (offset) in
theorem formatFull_spec (i : Nat) (h : ChainOk n (m :: ms)) (hw : m.readonly = false)
    (hin : offset + i * FORMAT_SECTORS ≤ n) :
    ∃ m', formatFull offset i (m :: ms) = some (offset + i * FORMAT_SECTORS, m' :: ms) ∧
      ChainOk n (m' :: ms) ∧ SameImage m m' ∧
      (0 < i → m'.disk_type ≠ .fixed → ∃ b, m'.curr_block = some b ∧ Allocated m' b) ∧
      SameFooter n m m' ∧
      ∀ s < n, sector (m' :: ms) s =
        blanked (sector (m :: ms)) offset (i * FORMAT_SECTORS) s := by
  induction i generalizing m offset with
  | zero =>
    refine ⟨m, by rw [Nat.zero_mul]; rfl, h, .refl m, fun h => absurd h (by decide),
      .of_eq rfl rfl, fun s hs => ?_⟩
    unfold blanked
    rw [if_neg (by omega)]
  | succ i ih =>
    have hformat : FORMAT_SECTORS = 64 := rfl
    have hmore : (i + 1) * FORMAT_SECTORS = i * FORMAT_SECTORS + FORMAT_SECTORS := Nat.succ_mul _ _
    have hn : n < 0x100000000 := h.1.total ▸ total_sectors_lt m
    obtain ⟨m₁, hrun, hwrote⟩ := mvhd_write_sectors_spec offset FORMAT_SECTORS
      (zeros (FORMAT_SECTORS * MVHD_SECTOR_SIZE)) h hw (by omega)
      (by decide) (by unfold zeros; rw [List.length_replicate])
    obtain ⟨hchain₁, himage₁, hthere₁, hfooter₁, hdisk₁⟩ := hwrote
    have hnext : (offset + FORMAT_SECTORS) % 0x100000000 = offset + FORMAT_SECTORS :=
      Nat.mod_eq_of_lt (by omega)
    obtain ⟨m₂, hrun₂, hchain₂, himage₂, hthere₂, hfooter₂, hdisk₂⟩ := ih
      (offset + FORMAT_SECTORS) hchain₁ (himage₁.readonly.trans hw) (by omega)
    refine ⟨m₂, ?_, hchain₂, himage₁.trans himage₂, fun _ hne => ?_,
      hfooter₁.trans himage₁ hfooter₂, fun s hs => ?_⟩
    · simp only [formatFull, hrun]
      rw [hnext, hrun₂]
      congr 2
      omega
    · by_cases hi : 0 < i
      · exact hthere₂ hi hne
      · obtain rfl : i = 0 := by omega
        obtain ⟨rfl, -⟩ := List.cons.inj (Prod.mk.inj (Option.some.inj hrun₂)).2
        exact hthere₁ hne
    · rw [hdisk₂ s hs]
      unfold blanked
      rw [hdisk₁ s hs]
      unfold written
      by_cases hfirst : offset ≤ s ∧ s < offset + FORMAT_SECTORS
      · rw [if_neg (by omega), if_pos hfirst, if_pos (by omega),
          sectorAt_zeros (show s - offset < FORMAT_SECTORS by omega)]
      · rw [if_neg hfirst]
        by_cases hrest : offset + FORMAT_SECTORS ≤ s ∧
            s < offset + FORMAT_SECTORS + i * FORMAT_SECTORS
        · rw [if_pos hrest, if_pos (by omega)]
        · rw [if_neg hrest, if_neg (by omega)]

/-- On a fixed image to write nothing is an error, and a format of full buffers ends so. -/
theorem mvhd_format_sectors_full (hfixed : m.disk_type = .fixed) (hw : m.readonly = false)
    (h : ChainOk n (m :: ms)) (hin : offset + num ≤ n) (hlast : num % FORMAT_SECTORS = 0) :
    ∃ m', mvhd_format_sectors (m :: ms) offset num = some (m' :: ms, 0) ∧ m'.error = true := by
  have hsplit := Nat.div_add_mod num FORMAT_SECTORS
  rw [Nat.mul_comm] at hsplit
  obtain ⟨m₁, hrun, hchain, himage, -⟩ := formatFull_spec offset (num / FORMAT_SECTORS) h hw
    (show offset + num / FORMAT_SECTORS * FORMAT_SECTORS ≤ n by omega)
  have hn : n < 0x100000000 := h.1.total ▸ total_sectors_lt m
  have hcheck := (@check_sectors_spec _ 0 _
    (show offset + num / FORMAT_SECTORS * FORMAT_SECTORS ≤ n by omega) hn).1
  unfold mvhd_format_sectors
  rw [hrun, hlast]
  simp only [mvhd_write_sectors, himage.readonly.trans hw, himage.disk_type.trans hfixed,
    Bool.false_eq_true, if_false, if_true, Option.map_some, mvhd_fixed_write, hchain.1.total,
    hcheck, Nat.zero_min, Nat.zero_mul, List.take_zero]
  exact ⟨_, rfl, Bool.or_true _⟩

/-- What is asked of an image. -/
inductive Op where
  | read (offset num : Nat) (buff : List (BitVec 8))
  | write (offset num : Nat) (buff : List (BitVec 8))
  | format (offset num : Nat)

/-- It starts inside of the image and is about some sector. A read or a write that goes over the end
is cut there, and its length in bytes fits an `int` and the buffer; a format has to be inside, and
its number of sectors fits an `int`. On a fixed image a format must not end with a write of
nothing. -/
def Op.Fits (n : Nat) (type : MVHDType) : Op → Prop
  | read offset num buff | write offset num buff =>
    offset < n ∧ 0 < num ∧ num * MVHD_SECTOR_SIZE < 0x80000000 ∧
      num * MVHD_SECTOR_SIZE ≤ buff.length
  | format offset num =>
    offset + num ≤ n ∧ 0 < num ∧ num < 0x80000000 ∧ (type = .fixed → num % FORMAT_SECTORS ≠ 0)

/-- The same of a plain row of sectors. -/
def plain (n : Nat) (disk : Nat → List (BitVec 8)) :
    Op → (Nat → List (BitVec 8)) × List (BitVec 8) × Nat
  | .read offset num buff =>
    (disk, (List.range (min num (n - offset))).flatMap (fun i => disk (offset + i)) ++
      buff.drop (min num (n - offset) * MVHD_SECTOR_SIZE), num - min num (n - offset))
  | .write offset num buff => (written disk offset num buff, [], num - min num (n - offset))
  | .format offset num => (blanked disk offset num, [], 0)

/-- The image shows a row of sectors. -/
def Shows (n : Nat) (ms : List MVHDMeta) (disk : Nat → List (BitVec 8)) : Prop :=
  ∀ s < n, sector ms s = disk s

end blumach.minivhd
