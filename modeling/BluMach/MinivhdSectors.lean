-- Sectors of a VHD image of blocks: a write changes the sectors that it writes and no others, and
-- a read gives the sectors that are there and zeroes for the others.
import BluMach.MinivhdBlocks

namespace blumach.minivhd

open buffers byte_file

variable {m m' : MVHDMeta} {b s n : Nat} {prev : Option Nat} {buff : List (BitVec 8)}

/-! ## Sectors of an image -/

theorem block_lt (h : Shape m) (hs : s < total_sectors m) :
    s / m.sect_per_block < m.max_bat_ent := by
  rw [Nat.div_lt_iff_lt_mul h.some]
  exact Nat.lt_of_lt_of_le hs h.enough

theorem Step.own (hstep : Step m m') (h : Shape m) (hs : s < total_sectors m) :
    own m' s = own m s := by
  unfold minivhd.own
  rw [hstep.image.sect_per_block]
  exact hstep.blocks _ (block_lt h hs) _ (Nat.mod_lt _ h.some)

theorem SameImage.total (h : SameImage m m') : total_sectors m' = total_sectors m := by
  unfold total_sectors
  rw [h.curr_sz]

/-- The next sector is in another block, or the next one of the same block. -/
theorem next_sector (s : Nat) (h : (s + 1) / n = s / n) :
    (s + 1) % n = s % n + 1 := by
  have hs := Nat.div_add_mod s n
  have hs' := Nat.div_add_mod (s + 1) n
  rw [h] at hs'
  omega

/-! ## Writes -/

/-- Between two sectors of a write: the bitmap of the block before is in memory, and the file is in
front of the next sector of that block. -/
def Writing (m : MVHDMeta) (prev : Option Nat) (s : Nat) : Prop :=
  match prev with
  | none => Clean m
  | some b => m.curr_block = some b ∧ Allocated m b ∧
      (s / m.sect_per_block = b → m.f.pos = addr m b (s % m.sect_per_block))

theorem leaveBlock_spec (h : Layout m) (hw : Writing m prev s) (hne : some b ≠ prev) :
    Step m (leaveBlock m prev b) ∧ Clean (leaveBlock m prev b) := by
  unfold leaveBlock
  cases prev with
  | none =>
    rw [if_neg (by simp)]
    exact ⟨.refl h, hw⟩
  | some c =>
    obtain ⟨hc, ha, -⟩ := hw
    rw [if_pos ⟨by rw [hc]; exact Ne.symm hne, by simp⟩]
    obtain ⟨hstep, hclean, -⟩ := write_curr_sect_bitmap_spec h hc ha
    exact ⟨hstep, hclean⟩

theorem needBlock_spec (h : Layout m) (hclean : Clean m) (hb : b < m.max_bat_ent) :
    Step m (needBlock m b) ∧ Clean (needBlock m b) ∧ Allocated (needBlock m b) b := by
  unfold needBlock
  by_cases ha : m.block_offset b = MVHD_SPARSE_BLK
  · rw [if_pos ha]
    obtain ⟨hstep, hclean', hc, hoffsets, -⟩ := read_sect_bitmap_spec h hclean hb
    have hs : ¬Allocated (read_sect_bitmap m b) b := by
      rw [allocated_congr hoffsets]
      exact fun h => h ha
    obtain ⟨hstep', hclean'', -, ha'⟩ := create_block_step hstep.layout hc hs
    exact ⟨hstep.trans hstep', hclean'', ha'⟩
  · rw [if_neg ha]
    exact ⟨.refl h, hclean, ha⟩

/-- Only the position is another one. -/
theorem step_pos (h : Layout m) (o : Nat) : Step m (seek m o) :=
  ⟨⟨rfl, rfl, rfl, rfl, rfl, rfl, rfl, rfl, rfl⟩,
    ⟨⟨h.shape.per_block, h.shape.some, h.shape.eights, h.shape.bitmap, h.shape.enough⟩, h.behind,
      h.before, h.apart, h.bat, h.table, h.footer, h.small, h.room, h.cached, h.blank⟩,
    fun _ _ _ _ => rfl⟩

theorem enterWrite_spec (h : Layout m) (hclean : Clean m) (hb : b < m.max_bat_ent)
    (ha : Allocated m b) (k : Nat) :
    Step m (enterWrite m b k) ∧ (enterWrite m b k).curr_block = some b ∧
      Allocated (enterWrite m b k) b ∧
      (enterWrite m b k).f.pos = addr (enterWrite m b k) b k := by
  unfold enterWrite
  by_cases hc : m.curr_block ≠ some b
  · rw [if_pos hc]
    obtain ⟨hstep, -, hc', hoffsets, -, -, hpos⟩ := read_sect_bitmap_spec h hclean hb
    have hstep' := step_pos hstep.layout ((read_sect_bitmap m b).f.pos + k * MVHD_SECTOR_SIZE)
    refine ⟨hstep.trans hstep', hc', (allocated_congr hoffsets b).mpr ha, ?_⟩
    have haddr : addr (seek (read_sect_bitmap m b)
        ((read_sect_bitmap m b).f.pos + k * MVHD_SECTOR_SIZE)) b k = addr m b k :=
      addr_congr (hstep.image.trans hstep'.image) hoffsets b k
    simp only [File.seekCur_pos]
    refine Eq.trans ?_ haddr.symm
    rw [addr_eq, hpos ha]
  · rw [if_neg hc]
    exact ⟨step_pos h _, not_not.mp hc, ha, rfl⟩

variable (buff) in
theorem writeSector_spec (h : Layout m) (hw : Writing m prev s) (hs : s < total_sectors m)
    (hbuff : buff.length = MVHD_SECTOR_SIZE) :
    SameImage m (writeSector m prev s buff) ∧ Layout (writeSector m prev s buff) ∧
      Writing (writeSector m prev s buff) (some (s / m.sect_per_block)) (s + 1) ∧
      ∀ r < total_sectors m,
        own (writeSector m prev s buff) r = if r = s then some buff else own m r := by
  have hb := block_lt h.shape hs
  have hsome := h.shape.some
  have hk := Nat.mod_lt s hsome
  -- in front of the sector
  obtain ⟨m', hm', hstep, hc, ha, hpos⟩ : ∃ m', writeSector m prev s buff =
      putSector m' (s % m.sect_per_block) buff ∧ Step m m' ∧
      m'.curr_block = some (s / m.sect_per_block) ∧ Allocated m' (s / m.sect_per_block) ∧
      m'.f.pos = addr m' (s / m.sect_per_block) (s % m.sect_per_block) := by
    by_cases hprev : some (s / m.sect_per_block) = prev
    · subst hprev
      obtain ⟨hc, ha, hpos⟩ := hw
      refine ⟨m, ?_, .refl h, hc, ha, hpos rfl⟩
      have hleave : leaveBlock m (some (s / m.sect_per_block)) (s / m.sect_per_block) = m :=
        if_neg fun h => h.1 hc
      have hneed : needBlock m (s / m.sect_per_block) = m := if_neg ha
      unfold writeSector putSector
      simp only [hleave, hneed, ne_eq, not_true_eq_false, if_false]
      rfl
    · obtain ⟨hstep, hclean⟩ := leaveBlock_spec (b := s / m.sect_per_block) h hw hprev
      obtain ⟨hstep', hclean', ha⟩ := needBlock_spec (b := s / m.sect_per_block) hstep.layout hclean
        (by rwa [hstep.image.max_bat_ent])
      have hboth := hstep.trans hstep'
      obtain ⟨hstep'', hc, ha', hpos⟩ := enterWrite_spec (b := s / m.sect_per_block) hboth.layout
        hclean' (by rwa [hboth.image.max_bat_ent]) ha (s % m.sect_per_block)
      refine ⟨_, ?_, hboth.trans hstep'', hc, ha', hpos⟩
      unfold writeSector putSector
      simp only [if_pos hprev]
      rfl
  have hspb := hstep.image.sect_per_block
  obtain ⟨himage, hlayout, hc', hoffsets, hpos', hblocks⟩ := putSector_spec hstep.layout hc ha
    (by rwa [hspb]) hpos hbuff
  have himage' := hstep.image.trans himage
  rw [hm']
  refine ⟨himage', hlayout, ⟨hc', (allocated_congr hoffsets _).mpr ha, fun hnext => ?_⟩,
    fun r hr => ?_⟩
  · rw [himage'.sect_per_block] at hnext ⊢
    rw [hpos', next_sector s hnext, addr_congr himage hoffsets]
  · unfold own
    rw [himage'.sect_per_block,
      hblocks _ (by rw [hstep.image.max_bat_ent]; exact block_lt h.shape hr)
      _ (by rw [hspb]; exact Nat.mod_lt _ hsome)]
    by_cases hrs : r = s
    · rw [if_pos hrs, hrs, if_pos ⟨rfl, rfl⟩]
    · rw [if_neg hrs, if_neg, hstep.blocks _ (block_lt h.shape hr) _ (Nat.mod_lt _ hsome)]
      rintro ⟨hdiv, hmod⟩
      refine hrs ?_
      rw [← Nat.div_add_mod r m.sect_per_block, ← Nat.div_add_mod s m.sect_per_block, hdiv, hmod]

/-- A sector of a buffer. -/
def sectorAt (buff : List (BitVec 8)) (i : Nat) : List (BitVec 8) :=
  (buff.drop (i * MVHD_SECTOR_SIZE)).take MVHD_SECTOR_SIZE

theorem sectorAt_zero : sectorAt buff 0 = buff.take MVHD_SECTOR_SIZE := by
  unfold sectorAt
  rw [Nat.zero_mul, List.drop_zero]

theorem sectorAt_succ (i : Nat) :
    sectorAt buff (i + 1) = sectorAt (buff.drop MVHD_SECTOR_SIZE) i := by
  unfold sectorAt
  rw [List.drop_drop, Nat.add_mul, Nat.one_mul, Nat.add_comm]

variable (buff) in
theorem writeSectors_spec (n : Nat) (h : Layout m) (hw : Writing m prev s)
    (hs : s + n ≤ total_sectors m) (hbuff : n * MVHD_SECTOR_SIZE ≤ buff.length) :
    SameImage m (writeSectors m prev s n buff) ∧ Layout (writeSectors m prev s n buff) ∧
      (0 < n → ∃ b, Writing (writeSectors m prev s n buff) (some b) (s + n)) ∧
      ∀ r < total_sectors m, own (writeSectors m prev s n buff) r =
        if s ≤ r ∧ r < s + n then some (sectorAt buff (r - s)) else own m r := by
  induction n generalizing m prev s buff with
  | zero =>
    refine ⟨.refl m, h, fun h => absurd h (by decide), fun r hr => ?_⟩
    rw [if_neg (by omega)]
    rfl
  | succ n ih =>
    have hlength : MVHD_SECTOR_SIZE ≤ buff.length := by
      rw [Nat.add_mul] at hbuff
      omega
    obtain ⟨himage, hlayout, hw', hown⟩ := writeSector_spec (buff.take MVHD_SECTOR_SIZE) h hw
      (by omega) (by rw [List.length_take]; omega)
    obtain ⟨himage', hlayout', hw'', hown'⟩ := ih (buff.drop MVHD_SECTOR_SIZE) hlayout hw'
      (by rw [himage.total]; omega) (by
        rw [List.length_drop]
        rw [Nat.add_mul] at hbuff
        omega)
    refine ⟨himage.trans himage', hlayout', fun _ => ?_, fun r hr => ?_⟩
    · rw [show s + (n + 1) = s + 1 + n by omega]
      by_cases hn : 0 < n
      · exact hw'' hn
      · obtain rfl : n = 0 := by omega
        exact ⟨_, hw'⟩
    · unfold writeSectors
      rw [hown' r (by rwa [himage.total]), hown r hr]
      by_cases hfirst : r = s
      · subst hfirst
        rw [if_neg (by omega), if_pos rfl, if_pos (by omega), Nat.sub_self, sectorAt_zero]
      · rw [if_neg hfirst]
        by_cases hrest : s + 1 ≤ r ∧ r < s + 1 + n
        · rw [if_pos hrest, if_pos (by omega), show r - s = r - (s + 1) + 1 by omega, sectorAt_succ]
        · rw [if_neg hrest, if_neg (by omega)]

theorem total_sectors_lt (m : MVHDMeta) : total_sectors m < 0x100000000 :=
  Nat.mod_lt _ (by decide)

/-- A transfer inside of the image, cut at its end. -/
theorem check_sectors_spec {offset num total : Nat} (hoffset : offset ≤ total)
    (htotal : total < 0x100000000) :
    check_sectors offset num total = (min num (total - offset), num - min num (total - offset)) ∧
      turns offset (min num (total - offset)) = min num (total - offset) := by
  have hsub : sub32 total offset = total - offset := by
    unfold sub32
    omega
  refine ⟨?_, ?_⟩
  · unfold check_sectors
    rw [hsub]
    split
    · rw [Nat.min_eq_right (by omega)]
    · rw [Nat.min_eq_left (by omega), Nat.sub_self]
  · unfold turns
    omega

theorem mvhd_sparse_diff_write_eq {offset num t u : Nat}
    (hcheck : check_sectors offset num (total_sectors m) = (t, u)) (hturns : turns offset t = t)
    (hoffset : offset < total_sectors m) : mvhd_sparse_diff_write m offset num buff =
      (write_curr_sect_bitmap (writeSectors m none offset t buff), u) := by
  unfold mvhd_sparse_diff_write writeInside
  rw [hcheck]
  dsimp only
  rw [if_pos hoffset, hturns]

/-- A write puts its sectors into the image, and all is in the file then. -/
theorem mvhd_sparse_diff_write_spec {offset num : Nat} (h : Layout m) (hclean : Clean m)
    (hoffset : offset < total_sectors m) (hnum : 0 < num)
    (hbuff : num * MVHD_SECTOR_SIZE ≤ buff.length) :
    ∃ m', mvhd_sparse_diff_write m offset num buff =
        (m', num - min num (total_sectors m - offset)) ∧
      SameImage m m' ∧ Layout m' ∧ Clean m' ∧ (∃ b, m'.curr_block = some b ∧ Allocated m' b) ∧
      ∀ r < total_sectors m, own m' r =
        if offset ≤ r ∧ r < offset + num then some (sectorAt buff (r - offset)) else own m r := by
  obtain ⟨hcheck, hturns⟩ := check_sectors_spec (Nat.le_of_lt hoffset)
    (total_sectors_lt m)
  have hstart : Writing m none offset := hclean
  obtain ⟨himage, hlayout, hw, hown⟩ := writeSectors_spec buff
    (min num (total_sectors m - offset)) h hstart (by omega)
    (Nat.le_trans (Nat.mul_le_mul_right _ (Nat.min_le_left _ _)) hbuff)
  obtain ⟨b, hc, ha, -⟩ := hw (by omega)
  obtain ⟨hstep, hclean', hc', hoffsets⟩ := write_curr_sect_bitmap_spec hlayout hc ha
  refine ⟨_, mvhd_sparse_diff_write_eq hcheck hturns hoffset, himage.trans hstep.image,
    hstep.layout, hclean', ⟨b, hc'.trans hc, (allocated_congr hoffsets b).mpr ha⟩, fun r hr => ?_⟩
  · rw [hstep.own hlayout.shape (by rwa [himage.total]), hown r hr]
    by_cases hin : offset ≤ r ∧ r < offset + num
    · rw [if_pos hin, if_pos (by omega)]
    · rw [if_neg hin, if_neg (by omega)]

/-! ## Reads -/

/-- Between two sectors of a read: the bitmap of the block is in memory, and the file is in front of
the next sector of a block that is there. -/
def Reading (m : MVHDMeta) (prev : Option Nat) (s : Nat) : Prop :=
  ∀ b, prev = some b → m.curr_block = some b ∧
    (Allocated m b → s / m.sect_per_block = b → m.f.pos = addr m b (s % m.sect_per_block))

/-- What a read leaves as it is. -/
structure Seen (m m' : MVHDMeta) : Prop where
  step : Step m m'
  clean : Clean m'
  offsets : m'.block_offset = m.block_offset
  size : m'.f.size = m.f.size
  data : m'.f.data = m.f.data

theorem Seen.trans {m'' : MVHDMeta} (h : Seen m m') (h' : Seen m' m'') : Seen m m'' :=
  ⟨h.step.trans h'.step, h'.clean, h'.offsets.trans h.offsets, h'.size.trans h.size,
    h'.data.trans h.data⟩

/-- The sector of a buffer: the one of the image, or zeroes. -/
def readOut (m : MVHDMeta) (s : Nat) : List (BitVec 8) := (own m s).getD (zeros MVHD_SECTOR_SIZE)

end blumach.minivhd
