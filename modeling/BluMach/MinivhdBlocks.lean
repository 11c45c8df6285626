-- The steps of a VHD image: bitmaps that are written and read, blocks that are made, sectors that
-- are written. Each one keeps the layout, and all sectors but those that it is about.
import BluMach.MinivhdLayout

namespace blumach.minivhd

open buffers byte_file

variable {m m' m'' : MVHDMeta} {b c k s : Nat}

/-- A step that is about no sector. -/
structure Step (m m' : MVHDMeta) : Prop where
  image : SameImage m m'
  layout : Layout m'
  blocks : SameBlocks m m'

theorem Step.refl (h : Layout m) : Step m m := ⟨.refl m, h, fun _ _ _ _ => rfl⟩

theorem Step.trans (h : Step m m') (h' : Step m' m'') : Step m m'' := by
  refine ⟨h.image.trans h'.image, h'.layout, fun b hb k hk => ?_⟩
  rw [h'.blocks b (by rwa [h.image.max_bat_ent]) k (by rwa [h.image.sect_per_block])]
  exact h.blocks b hb k hk

theorem bitmapSize_pos (h : Shape m) : 0 < bitmapSize m := by
  have hsome := h.some
  have hbits := h.bits
  omega

theorem fwrite_eq {xs : List (BitVec 8)} (h : xs ≠ []) :
    fwrite m xs = { m with f := m.f.fwrite xs } := by
  have hempty : xs.isEmpty = false := by simpa using h
  unfold fwrite
  rw [hempty, Bool.or_false]

theorem slice_ne_nil {a : Nat → BitVec 8} {p n : Nat} (h : 0 < n) : slice a p n ≠ [] :=
  List.ne_nil_of_length_pos (by rwa [length_slice])

/-! ## The bitmap goes to the file -/

theorem write_curr_sect_bitmap_spec (h : Layout m) (hc : m.curr_block = some b)
    (ha : Allocated m b) :
    Step m (write_curr_sect_bitmap m) ∧ Clean (write_curr_sect_bitmap m) ∧
      (write_curr_sect_bitmap m).curr_block = m.curr_block ∧
      (write_curr_sect_bitmap m).block_offset = m.block_offset := by
  have hb := h.cached b hc
  have hbefore := h.before b hb ha
  have hspan := span_eq m
  have hpos := bitmapSize_pos h.shape
  have heq : write_curr_sect_bitmap m =
      { m with f := (m.f.seek (start m b)).fwrite (slice m.curr_bitmap 0 (bitmapSize m)) } := by
    unfold write_curr_sect_bitmap
    rw [hc]
    simp only
    rw [fwrite_eq (slice_ne_nil hpos)]
    simp only [seek, start, hc]
  have hhas := File.fwrite_has (m.f.seek (start m b)) (slice m.curr_bitmap 0 (bitmapSize m))
  have hput : Put m (write_curr_sect_bitmap m) b := by
    rw [heq]
    refine ⟨⟨rfl, rfl, rfl, rfl, rfl, rfl, rfl, rfl, rfl⟩, rfl, rfl, ?_, fun i hi hout => ?_⟩
    · exact File.fwrite_size_inside
        (by simp only [File.seek_pos, File.seek_size, length_slice]; omega)
    · refine File.fwrite_outside hi ?_
      simp only [File.seek_pos, length_slice]
      omega
  have hfile : ∀ i < bitmapSize m,
      (write_curr_sect_bitmap m).f.data (start m b + i) = m.curr_bitmap i := by
    intro i hi
    rw [heq]
    have hget := has_slice_iff.mp hhas i hi
    rwa [Nat.zero_add] at hget
  have hcache : (write_curr_sect_bitmap m).curr_bitmap = m.curr_bitmap := by rw [heq]
  have hsize := hput.image.bitmapSize
  have hlayout := h.put hc ha hput
  refine ⟨⟨hput.image, hlayout, fun c hcb k hk => ?_⟩, fun c hcurr _ i hi => ?_, hput.block,
    hput.offsets⟩
  · by_cases hcb' : c = b
    · subst hcb'
      refine blockSector_congr h.shape hk (fun i hi => ?_) fun i hi => ?_
      · unfold bitmapOf
        rw [hput.block, if_pos hc, if_pos hc, hcache]
      · obtain ⟨hlow, hhigh⟩ := addr_inside (b := c) hk hi
        rw [addr_congr hput.image hput.offsets, heq]
        refine File.fwrite_outside (by simp only [File.seek_size]; omega) (.inr ?_)
        simpa only [File.seek_pos, length_slice] using hlow
    · exact h.put_others hc ha hput hcb hcb' hk
  · rw [hput.block, hc] at hcurr
    obtain rfl := Option.some.inj hcurr
    rw [hsize] at hi
    rw [start_congr hput.offsets, hfile i hi, hcache]

/-! ## A bitmap comes from the file -/

theorem read_sect_bitmap_file (h : Layout m) (hb : b < m.max_bat_ent) (ha : Allocated m b) :
    read_sect_bitmap m b = { m with
      f := m.f.seek (start m b + bitmapSize m)
      curr_bitmap := fun i =>
        if i < bitmapSize m then m.f.data (start m b + i) else m.curr_bitmap i
      curr_block := some b } := by
  have hbefore := h.before b hb ha
  have hspan := span_eq m
  have hread := File.fread_eq (f := m.f.seek (start m b)) (bitmapSize_pos h.shape) (by
    simp only [File.seek_pos, File.seek_size]
    omega)
  have hcache : (fun i =>
      if i < bitmapSize m then (slice m.f.data (start m b) (bitmapSize m)).getD i 0
      else m.curr_bitmap i) =
      fun i => if i < bitmapSize m then m.f.data (start m b + i) else m.curr_bitmap i := by
    funext i
    split
    · rw [List.getD_eq_getElem _ _ (by rwa [length_slice]), getElem_slice]
    · rfl
  unfold Allocated at ha
  unfold start at hread hcache
  unfold read_sect_bitmap
  rw [if_pos ha]
  simp only [hread, Bool.not_true, Bool.or_false, File.seek_data, File.seek_pos, length_slice,
    hcache]
  rfl

/-- The bitmap of a block: the one of the file, or none. -/
theorem read_sect_bitmap_eq (h : Layout m) (hb : b < m.max_bat_ent) :
    ∃ f a, read_sect_bitmap m b = { m with f := f, curr_bitmap := a, curr_block := some b } ∧
      f.size = m.f.size ∧ f.data = m.f.data ∧
      (Allocated m b → f.pos = start m b + bitmapSize m) ∧
      ∀ i < bitmapSize m, a i = if Allocated m b then m.f.data (start m b + i) else 0 := by
  by_cases ha : Allocated m b
  · refine ⟨_, _, read_sect_bitmap_file h hb ha, rfl, rfl, fun _ => rfl, fun i hi => ?_⟩
    simp only [if_pos ha, if_pos hi]
  · refine ⟨m.f, fun i => if i < bitmapSize m then 0 else m.curr_bitmap i, ?_, rfl, rfl,
      fun h => absurd h ha, fun i hi => ?_⟩
    · unfold read_sect_bitmap
      exact if_neg ha
    · simp only [if_neg ha, if_pos hi]

theorem read_sect_bitmap_spec (h : Layout m) (hclean : Clean m) (hb : b < m.max_bat_ent) :
    Step m (read_sect_bitmap m b) ∧ Clean (read_sect_bitmap m b) ∧
      (read_sect_bitmap m b).curr_block = some b ∧
      (read_sect_bitmap m b).block_offset = m.block_offset ∧
      (read_sect_bitmap m b).f.size = m.f.size ∧ (read_sect_bitmap m b).f.data = m.f.data ∧
      (Allocated m b → (read_sect_bitmap m b).f.pos = start m b + bitmapSize m) := by
  obtain ⟨f, a, heq, hsize, hdata, hfpos, hbitmap⟩ := read_sect_bitmap_eq h hb
  have himage : SameImage m (read_sect_bitmap m b) := by
    rw [heq]
    exact ⟨rfl, rfl, rfl, rfl, rfl, rfl, rfl, rfl, rfl⟩
  have hoffsets : (read_sect_bitmap m b).block_offset = m.block_offset := by rw [heq]
  have hcurr : (read_sect_bitmap m b).curr_block = some b := by rw [heq]
  have hsize' : (read_sect_bitmap m b).f.size = m.f.size := by rw [heq, hsize]
  have hdata' : (read_sect_bitmap m b).f.data = m.f.data := by rw [heq, hdata]
  have hbitmap' : ∀ i < bitmapSize m, (read_sect_bitmap m b).curr_bitmap i =
      if Allocated m b then m.f.data (start m b + i) else 0 := by
    rw [heq]
    exact hbitmap
  have hfpos' : Allocated m b → (read_sect_bitmap m b).f.pos = start m b + bitmapSize m := by
    rw [heq]
    exact hfpos
  clear heq hbitmap hfpos hsize hdata
  generalize read_sect_bitmap m b = m' at *
  have halloc := allocated_congr hoffsets
  have hstart := start_congr hoffsets
  refine ⟨⟨himage, ?_, ?_⟩, ?_, hcurr, hoffsets, hsize', hdata', hfpos'⟩
  · have hmax := himage.max_bat_ent
    refine ⟨h.shape.same himage, ?_, ?_, ?_, ?_, ?_, ?_, ?_, ?_, ?_, ?_⟩
    all_goals
      simp only [hmax, halloc, hstart, himage.batEnd, himage.span, himage.bat_offset, hsize',
        hdata', himage.bitmapSize, hoffsets, sparseBlocks_congr hoffsets hmax]
    · exact h.behind
    · exact h.before
    · exact h.apart
    · exact h.bat
    · exact h.table
    · exact h.footer
    · exact h.small
    · exact h.room
    · intro c hc
      rw [hcurr] at hc
      obtain rfl := Option.some.inj hc
      exact hb
    · intro c hc hs i hi
      rw [hcurr] at hc
      obtain rfl := Option.some.inj hc
      rw [hbitmap' i hi, if_neg hs]
  · intro c hcb k hk
    refine blockSector_congr h.shape hk (fun i hi => ?_) fun i hi => ?_
    · unfold bitmapOf
      rw [hcurr, hstart]
      by_cases hcb' : c = b
      · subst hcb'
        rw [if_pos rfl, hbitmap' i hi]
        by_cases hold : m.curr_block = some c
        · rw [if_pos hold]
          by_cases ha : Allocated m c
          · rw [if_pos ha, hclean c hold ha i hi]
          · rw [if_neg ha, h.blank c hold ha i hi]
        · rw [if_neg hold]
      · rw [if_neg fun h => hcb' (Option.some.inj h).symm, hdata']
        simp only [halloc]
        by_cases hold : m.curr_block = some c
        · rw [if_pos hold]
          by_cases ha : Allocated m c
          · rw [if_pos ha, hclean c hold ha i hi]
          · rw [if_neg ha, h.blank c hold ha i hi]
        · rw [if_neg hold]
    · rw [addr_congr himage hoffsets, hdata']
  · intro c hc ha i hi
    rw [hcurr] at hc
    obtain rfl := Option.some.inj hc
    rw [himage.bitmapSize] at hi
    rw [hbitmap' i hi, if_pos ((halloc _).mp ha), hdata', hstart]

/-! ## A block is made -/

/-- So many zeroes have been written. -/
structure Zeroed (f f' : File) (n : Nat) : Prop where
  pos : f'.pos = f.pos + n
  size : f'.size = max f.size (f.pos + n)
  same : ∀ i < f.pos, f'.data i = f.data i
  zero : ∀ i, f.pos ≤ i → i < f.pos + n → f'.data i = 0

variable {f f' f'' : File} {n : Nat}

theorem Zeroed.refl (h : f.pos ≤ f.size) : Zeroed f f 0 :=
  ⟨rfl, (Nat.max_eq_left h).symm, fun _ _ => rfl, fun i hlow hhigh => by omega⟩

theorem Zeroed.trans (h : Zeroed f f' n) (h' : Zeroed f' f'' k) : Zeroed f f'' (n + k) := by
  obtain ⟨hpos, hsize, hsame, hzero⟩ := h
  obtain ⟨hpos', hsize', hsame', hzero'⟩ := h'
  refine ⟨by omega, by omega, fun i hi => ?_, fun i hlow hhigh => ?_⟩
  · rw [hsame' i (by omega), hsame i hi]
  · by_cases hi : i < f'.pos
    · rw [hsame' i hi, hzero i hlow (by omega)]
    · exact hzero' i (by omega) (by omega)

theorem Zeroed.le (h : Zeroed f f' n) : f'.pos ≤ f'.size := by
  rw [h.pos, h.size]
  exact Nat.le_max_right _ _

theorem zeroed_fwrite (h : f.pos ≤ f.size) (n : Nat) : Zeroed f (f.fwrite (zeros n)) n := by
  have hlength : (zeros n).length = n := List.length_replicate
  refine ⟨by rw [File.fwrite_pos, hlength], ?_, fun i hi => ?_, fun i hlow hhigh => ?_⟩
  · unfold File.fwrite
    split
    · next hnil =>
      rw [hnil] at hlength
      simp only [List.length_nil] at hlength
      omega
    · rw [hlength]
  · exact File.fwrite_outside (by omega) (.inl hi)
  · have hget := File.fwrite_has f (zeros n) (i - f.pos) (by rw [hlength]; omega)
    rw [show f.pos + (i - f.pos) = i by omega] at hget
    rw [hget]
    exact List.getElem_replicate _

theorem zeros_ne_nil (h : 0 < n) : zeros n ≠ [] :=
  List.ne_nil_of_length_pos (by unfold zeros; rwa [List.length_replicate])

theorem mvhd_write_empty_sectors_spec (n : Nat) (h : m.f.pos ≤ m.f.size) :
    ∃ f, mvhd_write_empty_sectors n m = { m with f := f } ∧
      Zeroed m.f f (n * MVHD_SECTOR_SIZE) := by
  induction n generalizing m with
  | zero => exact ⟨m.f, rfl, by rw [Nat.zero_mul]; exact .refl h⟩
  | succ n ih =>
    have hfirst := zeroed_fwrite h MVHD_SECTOR_SIZE
    obtain ⟨f, hrun, hrest⟩ :=
      ih (m := { m with f := m.f.fwrite (zeros MVHD_SECTOR_SIZE) }) hfirst.le
    refine ⟨f, ?_, ?_⟩
    · unfold mvhd_write_empty_sectors
      rw [fwrite_eq (zeros_ne_nil (by decide)), hrun]
    · rw [Nat.add_mul, Nat.one_mul, Nat.add_comm]
      exact hfirst.trans hrest

theorem pad_spec (h : m.f.pos ≤ m.f.size) : ∃ f n, pad m = { m with f := f } ∧ Zeroed m.f f n ∧
    n < MVHD_SECTOR_SIZE ∧ f.pos % MVHD_SECTOR_SIZE = 0 := by
  have hsector : MVHD_SECTOR_SIZE = 512 := rfl
  unfold pad
  by_cases hpad : m.f.pos % MVHD_SECTOR_SIZE ≠ 0
  · rw [if_pos hpad]
    have hmod := Nat.mod_lt m.f.pos (show 0 < MVHD_SECTOR_SIZE by decide)
    have hzeroed := zeroed_fwrite h (MVHD_SECTOR_SIZE - m.f.pos % MVHD_SECTOR_SIZE)
    refine ⟨_, _, fwrite_eq (zeros_ne_nil (by omega)), hzeroed, by omega, ?_⟩
    rw [hzeroed.pos]
    rw [hsector] at hmod hpad ⊢
    omega
  · rw [if_neg hpad]
    exact ⟨m.f, 0, rfl, .refl h, by decide, by omega⟩

theorem takeFooter_spec (h : Layout m) :
    takeFooter m = ({ m with f := m.f.seek (m.f.size - MVHD_FOOTER_SIZE) },
      slice m.f.data (m.f.size - MVHD_FOOTER_SIZE) MVHD_FOOTER_SIZE) := by
  have htable := h.table
  have hfooter := h.footer
  have hin : MVHD_FOOTER_SIZE ≤ m.f.size := by omega
  have hread := File.fread_eq (f := m.f.seek (m.f.size - MVHD_FOOTER_SIZE))
    (show 0 < MVHD_FOOTER_SIZE by decide) (by
      simp only [File.seek_pos, File.seek_size]
      omega)
  unfold takeFooter
  rw [File.seekEnd_eq hin]
  simp only [hread, File.seek_data, File.seek_pos, length_slice, Nat.sub_self, zeros,
    List.replicate_zero, List.append_nil, hfooter, if_true]
  rw [File.seekEnd_eq (by simpa using hin)]
  simp only [File.seek_size, File.seek_seek]

/-- The file with one block more. -/
structure Made (m : MVHDMeta) (b o : Nat) (f : File) : Prop where
  low : m.f.size ≤ o * MVHD_SECTOR_SIZE + MVHD_FOOTER_SIZE
  high : o * MVHD_SECTOR_SIZE ≤ m.f.size
  size : f.size = o * MVHD_SECTOR_SIZE + span m + 6 * MVHD_SECTOR_SIZE
  same : ∀ i < m.f.size - MVHD_FOOTER_SIZE,
    i < m.bat_offset + b * 4 ∨ m.bat_offset + b * 4 + 4 ≤ i → f.data i = m.f.data i
  zero : ∀ i < span m, f.data (o * MVHD_SECTOR_SIZE + i) = 0
  entry : Has f.data (m.bat_offset + b * 4) (mvhd_to_be32 o)
  footer : slice f.data (f.size - MVHD_FOOTER_SIZE) MVHD_FOOTER_SIZE =
    slice m.f.data (m.f.size - MVHD_FOOTER_SIZE) MVHD_FOOTER_SIZE

theorem create_block_spec (h : Layout m) (hb : b < m.max_bat_ent) :
    ∃ f o, create_block m b =
        { m with f := f, block_offset := Function.update m.block_offset b o } ∧
      Made m b o f := by
  have hsector : MVHD_SECTOR_SIZE = 512 := rfl
  have hfooter : MVHD_FOOTER_SIZE = 512 := rfl
  have htable := h.table
  have hentry : m.bat_offset + b * 4 + 4 ≤ batEnd m := by unfold batEnd; omega
  -- the zeroes, from where the footer was
  obtain ⟨f₁, n₁, hpad, hzero₁, hn₁, halign⟩ := pad_spec
    (m := { m with f := m.f.seek (m.f.size - MVHD_FOOTER_SIZE) }) (by
      simp only [File.seek_pos, File.seek_size]
      omega)
  obtain ⟨f₂, hblock, hzero₂⟩ := mvhd_write_empty_sectors_spec (m := { m with f := f₁ })
    (m.sector_count + m.block_sz / MVHD_SECTOR_SIZE) hzero₁.le
  obtain ⟨f₃, hmore, hzero₃⟩ := mvhd_write_empty_sectors_spec (m := { m with f := f₂ }) 5 hzero₂.le
  have hzeroed := (hzero₁.trans hzero₂).trans hzero₃
  obtain ⟨o, ho⟩ : ∃ o, f₁.pos = o * MVHD_SECTOR_SIZE :=
    ⟨f₁.pos / MVHD_SECTOR_SIZE, (Nat.div_mul_cancel (Nat.dvd_of_mod_eq_zero halign)).symm⟩
  have hstart := hzero₁.pos
  simp only [File.seek_pos] at hstart
  have hspan : (m.sector_count + m.block_sz / MVHD_SECTOR_SIZE) * MVHD_SECTOR_SIZE = span m := by
    unfold span
    rw [h.shape.per_block]
  rw [hspan] at hzeroed hzero₂
  have hroom : o < 0x100000000 := by
    have hroom := h.room
    have hblank : MVHD_SPARSE_BLK = 0xffffffff := rfl
    rw [hsector] at *
    omega
  have hindex : o * MVHD_SECTOR_SIZE / MVHD_SECTOR_SIZE % 0x100000000 = o := by
    rw [Nat.mul_div_cancel _ (by decide)]
    exact Nat.mod_eq_of_lt hroom
  -- the footer, and the entry
  obtain ⟨footer, hfoot⟩ : ∃ footer, footer =
    slice m.f.data (m.f.size - MVHD_FOOTER_SIZE) MVHD_FOOTER_SIZE := ⟨_, rfl⟩
  have hlength : footer.length = MVHD_FOOTER_SIZE := by rw [hfoot, length_slice]
  obtain ⟨f₄, hf₄⟩ : ∃ f₄, f₄ = f₃.fwrite footer := ⟨_, rfl⟩
  have heq : create_block m b = { m with
      f := (f₄.seek (m.bat_offset + b * 4)).fwrite (mvhd_to_be32 o)
      block_offset := Function.update m.block_offset b o } := by
    unfold create_block
    rw [takeFooter_spec h]
    simp only [hpad]
    rw [hblock]
    simp only [hmore]
    rw [← hfoot, fwrite_eq (List.ne_nil_of_length_pos (by rw [hlength]; decide))]
    unfold write_bat_entry
    rw [fwrite_eq (by simp [mvhd_to_be32])]
    simp only [seek, Function.update_self, ← hf₄, ho, hindex]
  have hpos₃ := hzeroed.pos
  have hsize₃ := hzeroed.size
  simp only [File.seek_pos, File.seek_size] at hpos₃ hsize₃
  have hend : f₃.pos = f₃.size := by omega
  have hsize₄ : f₄.size = o * MVHD_SECTOR_SIZE + span m + 6 * MVHD_SECTOR_SIZE := by
    rw [hf₄, File.fwrite_size_end hend, hlength]
    omega
  have hsize : ((f₄.seek (m.bat_offset + b * 4)).fwrite (mvhd_to_be32 o)).size = f₄.size :=
    File.fwrite_size_inside (by simp only [File.seek_pos, File.seek_size, be32_length]; omega)
  refine ⟨_, o, heq, ?_, ?_, ?_, ?_, ?_, ?_, ?_⟩
  · omega
  · omega
  · rw [hsize, hsize₄]
  · intro i hi hout
    rw [File.fwrite_outside (by simp only [File.seek_size]; omega) (by
      simp only [File.seek_pos, be32_length]
      exact hout)]
    simp only [File.seek_data]
    rw [hf₄, File.fwrite_outside (by omega) (.inl (by omega))]
    exact hzeroed.same i (by simp only [File.seek_pos]; omega)
  · intro i hi
    rw [File.fwrite_outside (by simp only [File.seek_size]; omega) (by
      simp only [File.seek_pos, be32_length]
      omega)]
    simp only [File.seek_data]
    rw [hf₄, File.fwrite_outside (by omega) (.inl (by omega))]
    exact (hzero₂.trans hzero₃).zero _ (by simp only; omega) (by simp only; omega)
  · exact File.fwrite_has _ _
  · have hhas : Has f₄.data f₃.pos footer := by
      rw [hf₄]
      exact File.fwrite_has f₃ footer
    have hhas' :
        Has ((f₄.seek (m.bat_offset + b * 4)).fwrite (mvhd_to_be32 o)).data f₃.pos footer :=
      File.has_fwrite_outside hhas (by simp only [File.seek_size, hlength]; omega) (by
        simp only [File.seek_pos, be32_length]
        omega)
    have hslice := hhas'.eq_slice
    rw [hlength] at hslice
    have hend₄ : f₄.size - MVHD_FOOTER_SIZE = f₃.pos := by omega
    rw [hsize, ← hfoot, hend₄]
    exact hslice.symm

/-- A block of an image with one block more: the new one, or an old one. -/
structure Grown (m m' : MVHDMeta) (b o : Nat) : Prop where
  image : SameImage m m'
  made : Made m b o m'.f
  entry : m'.block_offset b = o
  entries : ∀ c, c ≠ b → m'.block_offset c = m.block_offset c
  block : m'.curr_block = m.curr_block
  cache : m'.curr_bitmap = m.curr_bitmap

section

variable {o : Nat}

theorem Grown.start_new (h : Grown m m' b o) : start m' b = o * MVHD_SECTOR_SIZE := by
  unfold start
  rw [h.entry]

theorem Grown.start_old (h : Grown m m' b o) (hne : c ≠ b) : start m' c = start m c := by
  unfold start
  rw [h.entries c hne]

theorem Grown.allocated_old (h : Grown m m' b o) (hne : c ≠ b) :
    Allocated m' c ↔ Allocated m c := by
  unfold Allocated
  rw [h.entries c hne]

theorem Grown.small (h : Grown m m' b o) (hl : Layout m) : o < MVHD_SPARSE_BLK := by
  have hroom := hl.room
  have hhigh := h.made.high
  have hsector : MVHD_SECTOR_SIZE = 512 := rfl
  rw [hsector] at hroom hhigh
  omega

theorem Grown.allocated_new (h : Grown m m' b o) (hl : Layout m) : Allocated m' b := by
  have hsmall := h.small hl
  unfold Allocated
  rw [h.entry]
  omega

theorem Grown.sparseBlocks (h : Grown m m' b o) (hl : Layout m) :
    sparseBlocks m' = (sparseBlocks m).erase b := by
  ext c
  simp only [minivhd.sparseBlocks, Finset.mem_filter, Finset.mem_erase, Finset.mem_range,
    h.image.max_bat_ent]
  by_cases hne : c = b
  · subst hne
    simp [h.allocated_new hl]
  · simp [hne, h.allocated_old hne]

theorem Grown.room (h : Grown m m' b o) (hl : Layout m) (hb : b < m.max_bat_ent)
    (hs : ¬Allocated m b) :
    m'.f.size + (minivhd.sparseBlocks m').card * (span m' + 6 * MVHD_SECTOR_SIZE) <
      MVHD_SPARSE_BLK * MVHD_SECTOR_SIZE := by
  have hmem : b ∈ minivhd.sparseBlocks m :=
    Finset.mem_filter.mpr ⟨Finset.mem_range.mpr hb, hs⟩
  have hroom := hl.room
  have hhigh := h.made.high
  rw [h.sparseBlocks hl, Finset.card_erase_of_mem hmem, h.image.span, h.made.size]
  obtain ⟨n, hn⟩ : ∃ n, (minivhd.sparseBlocks m).card = n + 1 :=
    ⟨(minivhd.sparseBlocks m).card - 1, (Nat.sub_add_cancel (Finset.card_pos.mpr ⟨b, hmem⟩)).symm⟩
  rw [hn, Nat.add_mul, Nat.one_mul] at hroom
  rw [hn, Nat.add_sub_cancel]
  omega

theorem Grown.layout (h : Grown m m' b o) (hl : Layout m) (hc : m.curr_block = some b)
    (hs : ¬Allocated m b) : Layout m' := by
  have hb := hl.cached b hc
  have hmax := h.image.max_bat_ent
  have htable := hl.table
  have hmade := h.made
  have hlow := hmade.low
  have hsize := hmade.size
  have hfooter : MVHD_FOOTER_SIZE = 512 := rfl
  have hsector : MVHD_SECTOR_SIZE = 512 := rfl
  -- an old block ends where the footer was
  have hold : ∀ c < m.max_bat_ent, Allocated m c →
      start m c + span m ≤ o * MVHD_SECTOR_SIZE := by
    intro c hcb ha
    have hbefore := hl.before c hcb ha
    omega
  refine ⟨hl.shape.same h.image, ?_, ?_, ?_, ?_, ?_, ?_, ?_, h.room hl hb hs, ?_, ?_⟩
  · intro c hcb ha
    rw [hmax] at hcb
    rw [h.image.batEnd]
    by_cases hne : c = b
    · subst hne
      rw [h.start_new]
      omega
    · rw [h.start_old hne]
      exact hl.behind c hcb ((h.allocated_old hne).mp ha)
  · intro c hcb ha
    rw [hmax] at hcb
    rw [h.image.span]
    by_cases hne : c = b
    · subst hne
      rw [h.start_new]
      omega
    · have hc := hold c hcb ((h.allocated_old hne).mp ha)
      rw [h.start_old hne]
      omega
  · intro c hcb e heb hac hae hce
    rw [hmax] at hcb heb
    rw [h.image.span]
    by_cases hne : c = b
    · subst hne
      rw [h.start_new, h.start_old (Ne.symm hce)]
      exact .inr (hold e heb ((h.allocated_old (Ne.symm hce)).mp hae))
    · rw [h.start_old hne]
      have hac := (h.allocated_old hne).mp hac
      by_cases hne' : e = b
      · subst hne'
        rw [h.start_new]
        exact .inl (hold c hcb hac)
      · rw [h.start_old hne']
        exact hl.apart c hcb e heb hac ((h.allocated_old hne').mp hae) hce
  · intro c hcb
    rw [hmax] at hcb
    rw [h.image.bat_offset]
    by_cases hne : c = b
    · subst hne
      rw [h.entry]
      exact hmade.entry
    · rw [h.entries c hne]
      refine (hl.bat c hcb).congr fun i hlow' hi => ?_
      rw [be32_length] at hi
      unfold batEnd at htable
      exact hmade.same i (by omega) (by omega)
  · rw [h.image.batEnd]
    omega
  · rw [hmade.footer]
    exact hl.footer
  · intro c hcb
    rw [hmax] at hcb
    by_cases hne : c = b
    · subst hne
      have hsmall := h.small hl
      have hblank : MVHD_SPARSE_BLK = 0xffffffff := rfl
      rw [h.entry]
      omega
    · rw [h.entries c hne]
      exact hl.small c hcb
  · intro c hc'
    rw [h.block] at hc'
    rw [hmax]
    exact hl.cached c hc'
  · intro c hc' hs'
    rw [h.block, hc] at hc'
    obtain rfl := Option.some.inj hc'
    exact absurd (h.allocated_new hl) hs'

theorem Grown.blocks (h : Grown m m' b o) (hl : Layout m) (hc : m.curr_block = some b)
    (hs : ¬Allocated m b) : SameBlocks m m' := by
  intro c hcb k hk
  have hlayout := h.layout hl hc hs
  have hk' : k < m'.sect_per_block := by rwa [h.image.sect_per_block]
  by_cases hne : c = b
  · subst hne
    have hbits := hl.shape.bits
    have hzero : ∀ i < bitmapSize m, bitmapOf m' c i = (fun _ => 0) i := by
      intro i hi
      unfold bitmapOf
      rw [h.block, if_pos hc, h.cache, hl.blank c hc hs i hi]
    rw [blockSector_sparse hl hk hs]
    unfold blockSector
    rw [testBit_congr hzero (by omega)]
    simp [VHD_TESTBIT]
  · by_cases ha : Allocated m c
    · have hother : m.curr_block ≠ some c := by
        rw [hc]
        exact fun h => hne (Option.some.inj h).symm
      have hbefore := hl.before c hcb ha
      have hbehind := hl.behind c hcb ha
      have hb := hl.cached b hc
      have hspan := span_eq m
      have hentry : m.bat_offset + b * 4 + 4 ≤ batEnd m := by unfold batEnd; omega
      refine blockSector_congr hl.shape hk (fun i hi => ?_) fun i hi => ?_
      · unfold bitmapOf
        rw [h.block, if_neg hother, if_neg hother, if_pos ha,
          if_pos ((h.allocated_old hne).mpr ha), h.start_old hne]
        exact h.made.same _ (by omega) (.inr (by omega))
      · obtain ⟨hlow, hhigh⟩ := addr_inside (b := c) hk hi
        have haddr : addr m' c k = addr m c k := by
          rw [addr_eq, addr_eq, h.start_old hne, h.image.bitmapSize]
        rw [haddr]
        exact h.made.same _ (by omega) (.inr (by omega))
    · rw [blockSector_sparse hl hk ha,
        blockSector_sparse hlayout hk' fun ha' => ha ((h.allocated_old hne).mp ha')]

end

theorem create_block_step (h : Layout m) (hc : m.curr_block = some b) (hs : ¬Allocated m b) :
    Step m (create_block m b) ∧ Clean (create_block m b) ∧
      (create_block m b).curr_block = m.curr_block ∧ Allocated (create_block m b) b := by
  obtain ⟨f, o, heq, hmade⟩ := create_block_spec h (h.cached b hc)
  have hgrown : Grown m (create_block m b) b o := by
    rw [heq]
    exact ⟨⟨rfl, rfl, rfl, rfl, rfl, rfl, rfl, rfl, rfl⟩, hmade, Function.update_self _ _ _,
      fun c hne => Function.update_of_ne hne _ _, rfl, rfl⟩
  refine ⟨⟨hgrown.image, hgrown.layout h hc hs, hgrown.blocks h hc hs⟩, fun c hc' _ i hi => ?_,
    hgrown.block, hgrown.allocated_new h⟩
  rw [hgrown.block, hc] at hc'
  obtain rfl := Option.some.inj hc'
  rw [hgrown.image.bitmapSize] at hi
  rw [hgrown.cache, h.blank b hc hs i hi, hgrown.start_new]
  have hspan := span_eq m
  exact (hgrown.made.zero i (by omega)).symm

/-! ## A sector is written -/

/-- The step that writes a sector of the block in memory. -/
def putSector (m : MVHDMeta) (sib : Nat) (buff : List (BitVec 8)) : MVHDMeta :=
  { fwrite m buff with curr_bitmap := VHD_SETBIT m.curr_bitmap sib }

theorem addr_apart (m : MVHDMeta) (b : Nat) {j : Nat} (h : j ≠ k) :
    addr m b j + MVHD_SECTOR_SIZE ≤ addr m b k ∨ addr m b k + MVHD_SECTOR_SIZE ≤ addr m b j := by
  rw [addr_eq, addr_eq]
  rcases Nat.lt_or_gt_of_ne h with hlt | hlt
  · have hle := Nat.mul_le_mul_right MVHD_SECTOR_SIZE (Nat.succ_le_of_lt hlt)
    rw [Nat.succ_mul] at hle
    omega
  · have hle := Nat.mul_le_mul_right MVHD_SECTOR_SIZE (Nat.succ_le_of_lt hlt)
    rw [Nat.succ_mul] at hle
    omega

theorem putSector_spec {buff : List (BitVec 8)} (h : Layout m) (hc : m.curr_block = some b)
    (ha : Allocated m b) (hk : k < m.sect_per_block) (hpos : m.f.pos = addr m b k)
    (hbuff : buff.length = MVHD_SECTOR_SIZE) :
    SameImage m (putSector m k buff) ∧ Layout (putSector m k buff) ∧
      (putSector m k buff).curr_block = some b ∧
      (putSector m k buff).block_offset = m.block_offset ∧
      (putSector m k buff).f.pos = addr m b (k + 1) ∧
      ∀ c < m.max_bat_ent, ∀ j < m.sect_per_block, blockSector (putSector m k buff) c j =
        if c = b ∧ j = k then some buff else blockSector m c j := by
  have hsector : MVHD_SECTOR_SIZE = 512 := rfl
  have hbits := h.shape.bits
  have heq : putSector m k buff =
      { m with f := m.f.fwrite buff, curr_bitmap := VHD_SETBIT m.curr_bitmap k } := by
    unfold putSector
    rw [fwrite_eq (List.ne_nil_of_length_pos (by omega))]
  have hplace : ∀ i < MVHD_SECTOR_SIZE,
      start m b + bitmapSize m ≤ addr m b k + i ∧ addr m b k + i < start m b + span m :=
    fun i hi => addr_inside hk hi
  have hbefore := h.before b (h.cached b hc) ha
  have hlast := hplace (MVHD_SECTOR_SIZE - 1) (by omega)
  have hfirst := hplace 0 (by omega)
  have hput : Put m (putSector m k buff) b := by
    rw [heq]
    refine ⟨⟨rfl, rfl, rfl, rfl, rfl, rfl, rfl, rfl, rfl⟩, rfl, rfl, ?_, fun i hi hout => ?_⟩
    · exact File.fwrite_size_inside (by omega)
    · exact File.fwrite_outside hi (by omega)
  have haddr := addr_congr hput.image hput.offsets
  refine ⟨hput.image, h.put hc ha hput, hput.block.trans hc, hput.offsets, ?_, fun c hcb j hj => ?_⟩
  · rw [heq]
    simp only [File.fwrite_pos, hpos, hbuff]
    rw [addr_eq, addr_eq, Nat.add_mul]
    omega
  · by_cases hcb' : c = b
    · subst hcb'
      have hbit : VHD_TESTBIT (bitmapOf (putSector m k buff) c) j =
          (decide (j = k) || VHD_TESTBIT (bitmapOf m c) j) := by
        have hnew : bitmapOf (putSector m k buff) c = VHD_SETBIT m.curr_bitmap k := by
          funext i
          unfold bitmapOf
          rw [hput.block, if_pos hc, heq]
        have hold : bitmapOf m c = m.curr_bitmap := by
          funext i
          unfold bitmapOf
          rw [if_pos hc]
        rw [hnew, hold, testBit_setBit]
      unfold blockSector
      rw [hbit, haddr]
      by_cases hj' : j = k
      · subst hj'
        have hhas := File.fwrite_has m.f buff
        rw [hpos] at hhas
        have hslice := hhas.eq_slice
        rw [hbuff] at hslice
        rw [if_pos (by simp), if_pos ⟨rfl, rfl⟩, heq]
        exact congrArg some hslice.symm
      · have hother : slice (putSector m k buff).f.data (addr m c j) MVHD_SECTOR_SIZE =
            slice m.f.data (addr m c j) MVHD_SECTOR_SIZE := by
          refine slice_congr fun i hi => ?_
          obtain ⟨hlow, hhigh⟩ := addr_inside (b := c) hj hi
          have hapart := addr_apart m c hj'
          rw [heq]
          exact File.fwrite_outside (by omega) (by omega)
        rw [hother, decide_eq_false hj', Bool.false_or,
          if_neg (show ¬(c = c ∧ j = k) from fun h => hj' h.2)]
    · rw [if_neg (fun h => hcb' h.1)]
      exact h.put_others hc ha hput hcb hcb' hj

end blumach.minivhd
