-- Where the blocks of a VHD image are: apart from each other, behind the table of the blocks and in
-- front of the footer. Each step keeps it so, and what the other blocks hold.
import BluMach.Minivhd
import Mathlib.Data.Finset.Card
import Mathlib.Data.Finset.Range

namespace blumach.minivhd

open buffers byte_file

variable {m m' : MVHDMeta} {b c k s : Nat}

/-! ## Bits -/

theorem testBit_setBit (a : Nat → BitVec 8) (k j : Nat) :
    VHD_TESTBIT (VHD_SETBIT a k) j = (decide (j = k) || VHD_TESTBIT a j) := by
  have hbits : ∀ (x : BitVec 8) (i j : Fin 8),
      decide ((x ||| 0x80#8 >>> i.val) &&& 0x80#8 >>> j.val ≠ 0) =
        (decide (j = i) || decide (x &&& 0x80#8 >>> j.val ≠ 0)) := by
    decide +kernel
  have hmask : ∀ n : Nat, n &&& 7 = n % 8 := fun n => Nat.and_two_pow_sub_one_eq_mod n 3
  have hshift : ∀ n : Nat, n >>> 3 = n / 8 := fun n => Nat.shiftRight_eq_div_pow n 3
  simp only [VHD_TESTBIT, VHD_SETBIT, hmask, hshift]
  by_cases hbyte : j / 8 = k / 8
  · rw [hbyte, Function.update_self]
    have hrun := hbits (a (k / 8)) ⟨k % 8, Nat.mod_lt _ (by decide)⟩
      ⟨j % 8, Nat.mod_lt _ (by decide)⟩
    simp only [Fin.mk.injEq] at hrun
    rw [hrun]
    congr 2
    refine propext ⟨fun h => ?_, fun h => by rw [h]⟩
    omega
  · rw [Function.update_of_ne hbyte]
    have hne : j ≠ k := fun h => hbyte (by rw [h])
    simp [hne]

theorem testBit_congr {a a' : Nat → BitVec 8} {n : Nat} (h : ∀ i < n, a' i = a i)
    (hk : k < n * 8) : VHD_TESTBIT a' k = VHD_TESTBIT a k := by
  unfold VHD_TESTBIT
  rw [h _ (by rw [Nat.shiftRight_eq_div_pow]; omega)]

theorem be32_length (n : Nat) : (mvhd_to_be32 n).length = 4 := rfl

def Allocated (m : MVHDMeta) (b : Nat) : Prop := m.block_offset b ≠ MVHD_SPARSE_BLK

instance : Decidable (Allocated m b) := inferInstanceAs (Decidable (_ ≠ _))

/-- The first byte of a block. -/
def start (m : MVHDMeta) (b : Nat) : Nat := m.block_offset b * MVHD_SECTOR_SIZE

/-- The bytes of a block, with its bitmap. -/
def span (m : MVHDMeta) : Nat := (m.sector_count + m.sect_per_block) * MVHD_SECTOR_SIZE

def batEnd (m : MVHDMeta) : Nat := m.bat_offset + m.max_bat_ent * 4

/-- The blocks that are not in the file yet. -/
def sparseBlocks (m : MVHDMeta) : Finset Nat :=
  (Finset.range m.max_bat_ent).filter fun b => ¬Allocated m b

/-- The numbers of an image fit together. -/
structure Shape (m : MVHDMeta) : Prop where
  per_block : m.sect_per_block = m.block_sz / MVHD_SECTOR_SIZE
  some : 0 < m.sect_per_block
  eights : 8 ∣ m.sect_per_block
  bitmap : m.sector_count = m.sect_per_block / 8 / MVHD_SECTOR_SIZE +
    if m.sect_per_block / 8 % MVHD_SECTOR_SIZE > 0 then 1 else 0
  enough : total_sectors m ≤ m.max_bat_ent * m.sect_per_block

/-- Each block has a place of its own, and there is room for those to come. -/
structure Layout (m : MVHDMeta) : Prop where
  shape : Shape m
  behind : ∀ b < m.max_bat_ent, Allocated m b → batEnd m ≤ start m b
  before : ∀ b < m.max_bat_ent, Allocated m b →
    start m b + span m + MVHD_FOOTER_SIZE ≤ m.f.size
  apart : ∀ b < m.max_bat_ent, ∀ c < m.max_bat_ent, Allocated m b → Allocated m c → b ≠ c →
    start m b + span m ≤ start m c ∨ start m c + span m ≤ start m b
  bat : ∀ b < m.max_bat_ent, Has m.f.data (m.bat_offset + b * 4) (mvhd_to_be32 (m.block_offset b))
  table : batEnd m + MVHD_FOOTER_SIZE ≤ m.f.size
  footer : mvhd_is_conectix_str (slice m.f.data (m.f.size - MVHD_FOOTER_SIZE) MVHD_FOOTER_SIZE)
  small : ∀ b < m.max_bat_ent, m.block_offset b < 0x100000000
  room : m.f.size + (sparseBlocks m).card * (span m + 6 * MVHD_SECTOR_SIZE) <
    MVHD_SPARSE_BLK * MVHD_SECTOR_SIZE
  cached : ∀ b, m.curr_block = some b → b < m.max_bat_ent
  blank : ∀ b, m.curr_block = some b → ¬Allocated m b → ∀ i < bitmapSize m, m.curr_bitmap i = 0

/-- The bitmap in memory is the one of the file. -/
def Clean (m : MVHDMeta) : Prop :=
  ∀ b, m.curr_block = some b → Allocated m b →
    ∀ i < bitmapSize m, m.curr_bitmap i = m.f.data (start m b + i)

/-- What does not change over the life of an image. -/
structure SameImage (m m' : MVHDMeta) : Prop where
  readonly : m'.readonly = m.readonly
  error : m'.error = m.error
  curr_sz : m'.curr_sz = m.curr_sz
  disk_type : m'.disk_type = m.disk_type
  bat_offset : m'.bat_offset = m.bat_offset
  max_bat_ent : m'.max_bat_ent = m.max_bat_ent
  block_sz : m'.block_sz = m.block_sz
  sect_per_block : m'.sect_per_block = m.sect_per_block
  sector_count : m'.sector_count = m.sector_count

theorem SameImage.refl (m : MVHDMeta) : SameImage m m :=
    ⟨rfl, rfl, rfl, rfl, rfl, rfl, rfl, rfl, rfl⟩

theorem SameImage.trans {m'' : MVHDMeta} (h : SameImage m m') (h' : SameImage m' m'') :
    SameImage m m'' :=
  ⟨h'.readonly.trans h.readonly, h'.error.trans h.error, h'.curr_sz.trans h.curr_sz,
    h'.disk_type.trans h.disk_type, h'.bat_offset.trans h.bat_offset,
    h'.max_bat_ent.trans h.max_bat_ent, h'.block_sz.trans h.block_sz,
    h'.sect_per_block.trans h.sect_per_block, h'.sector_count.trans h.sector_count⟩

theorem Shape.bits (h : Shape m) : m.sect_per_block ≤ bitmapSize m * 8 := by
  obtain ⟨n, hn⟩ := h.eights
  have hbitmap := h.bitmap
  have hsize : MVHD_SECTOR_SIZE = 512 := rfl
  rw [hn, Nat.mul_div_cancel_left _ (by decide), hsize] at hbitmap
  unfold bitmapSize
  rw [hn, hbitmap, hsize]
  split <;> omega

theorem Shape.same (h : Shape m) (hsame : SameImage m m') : Shape m' := by
  obtain ⟨hper, hsome, heights, hbitmap, henough⟩ := h
  obtain ⟨-, -, hsz, -, -, hmax, hblock, hsect, hcount⟩ := hsame
  refine ⟨by rw [hsect, hblock, hper], by rw [hsect]; exact hsome, by rw [hsect]; exact heights,
    by rw [hcount, hsect]; exact hbitmap, ?_⟩
  unfold total_sectors at *
  rw [hsz, hmax, hsect]
  exact henough

theorem SameImage.span (h : SameImage m m') : span m' = span m := by
  unfold minivhd.span
  rw [h.sector_count, h.sect_per_block]

theorem SameImage.batEnd (h : SameImage m m') : batEnd m' = batEnd m := by
  unfold minivhd.batEnd
  rw [h.bat_offset, h.max_bat_ent]

theorem SameImage.bitmapSize (h : SameImage m m') : bitmapSize m' = bitmapSize m := by
  unfold minivhd.bitmapSize
  rw [h.sector_count]

/-! ## What the blocks hold -/

/-- The bitmap of a block: in memory, in the file, or none. -/
def bitmapOf (m : MVHDMeta) (b i : Nat) : BitVec 8 :=
  if m.curr_block = some b then m.curr_bitmap i
  else if Allocated m b then m.f.data (start m b + i)
  else 0

/-- A sector of a block, if it is there. -/
def blockSector (m : MVHDMeta) (b k : Nat) : Option (List (BitVec 8)) :=
  if VHD_TESTBIT (bitmapOf m b) k then some (slice m.f.data (addr m b k) MVHD_SECTOR_SIZE) else none

/-- A sector of an image, if it is there. -/
def own (m : MVHDMeta) (s : Nat) : Option (List (BitVec 8)) :=
  blockSector m (s / m.sect_per_block) (s % m.sect_per_block)

/-- All blocks hold what they held. -/
def SameBlocks (m m' : MVHDMeta) : Prop :=
  ∀ b < m.max_bat_ent, ∀ k < m.sect_per_block, blockSector m' b k = blockSector m b k

theorem blockSector_congr (h : Shape m) (hk : k < m.sect_per_block)
    (hbits : ∀ i < bitmapSize m, bitmapOf m' b i = bitmapOf m b i)
    (hdata : ∀ i < MVHD_SECTOR_SIZE, m'.f.data (addr m' b k + i) = m.f.data (addr m b k + i)) :
    blockSector m' b k = blockSector m b k := by
  have hbit := h.bits
  unfold blockSector
  rw [testBit_congr hbits (by omega), slice_congr hdata]

/-- A block that is not in the file holds nothing. -/
theorem blockSector_sparse (h : Layout m) (hk : k < m.sect_per_block) (hb : ¬Allocated m b) :
    blockSector m b k = none := by
  have hbit := h.shape.bits
  have hzero : ∀ i < bitmapSize m, bitmapOf m b i = (fun _ => 0) i := by
    intro i hi
    unfold bitmapOf
    split
    · exact h.blank b ‹_› hb i hi
    · rfl
  unfold blockSector
  rw [testBit_congr hzero (by omega)]
  simp [VHD_TESTBIT]

theorem addr_eq (m : MVHDMeta) (b k : Nat) :
    addr m b k = start m b + bitmapSize m + k * MVHD_SECTOR_SIZE := by
  unfold addr start bitmapSize
  rw [Nat.add_mul, Nat.add_mul]

theorem span_eq (m : MVHDMeta) : span m = bitmapSize m + m.sect_per_block * MVHD_SECTOR_SIZE := by
  unfold span bitmapSize
  rw [Nat.add_mul]

/-- The bitmap and the sectors of a block are inside of it. -/
theorem addr_inside {i : Nat} (hk : k < m.sect_per_block) (hi : i < MVHD_SECTOR_SIZE) :
    start m b + bitmapSize m ≤ addr m b k + i ∧ addr m b k + i < start m b + span m := by
  have hmul : (k + 1) * MVHD_SECTOR_SIZE ≤ m.sect_per_block * MVHD_SECTOR_SIZE :=
    Nat.mul_le_mul_right _ hk
  rw [addr_eq, span_eq]
  rw [Nat.add_mul] at hmul
  omega

/-! ## Writes into a block -/

theorem start_congr (h : m'.block_offset = m.block_offset) (b : Nat) : start m' b = start m b := by
  unfold start
  rw [h]

theorem allocated_congr (h : m'.block_offset = m.block_offset) (b : Nat) :
    Allocated m' b ↔ Allocated m b := by
  unfold Allocated
  rw [h]

theorem sparseBlocks_congr (h : m'.block_offset = m.block_offset)
    (hmax : m'.max_bat_ent = m.max_bat_ent) : sparseBlocks m' = sparseBlocks m := by
  unfold sparseBlocks
  simp only [hmax, allocated_congr h]

/-- Nothing has changed but the cached bitmap and the bytes of a block. -/
structure Put (m m' : MVHDMeta) (b : Nat) : Prop where
  image : SameImage m m'
  offsets : m'.block_offset = m.block_offset
  block : m'.curr_block = m.curr_block
  size : m'.f.size = m.f.size
  outside : ∀ i < m.f.size, i < start m b ∨ start m b + span m ≤ i → m'.f.data i = m.f.data i

/-- What is written into the block in memory keeps all that is outside of it. -/
theorem Layout.put (h : Layout m) (hc : m.curr_block = some b) (ha : Allocated m b)
    (hput : Put m m' b) : Layout m' := by
  obtain ⟨himage, hoffsets, hblock, hsize, hout⟩ := hput
  have hb := h.cached b hc
  have hbehind := h.behind b hb ha
  have hbefore := h.before b hb ha
  have hmax := himage.max_bat_ent
  have halloc := allocated_congr hoffsets
  have hstart := start_congr hoffsets
  refine ⟨h.shape.same himage, ?_, ?_, ?_, ?_, ?_, ?_, ?_, ?_, ?_, ?_⟩
  · intro b hb ha
    rw [himage.batEnd, hstart]
    exact h.behind b (hmax ▸ hb) ((halloc b).mp ha)
  · intro b hb ha
    rw [hstart, himage.span, hsize]
    exact h.before b (hmax ▸ hb) ((halloc b).mp ha)
  · intro b hb c hc hab hac
    rw [hstart, hstart, himage.span]
    exact h.apart b (hmax ▸ hb) c (hmax ▸ hc) ((halloc b).mp hab) ((halloc c).mp hac)
  · intro c hc
    rw [hmax] at hc
    rw [himage.bat_offset, hoffsets]
    refine (h.bat c hc).congr fun i _ hi => ?_
    rw [be32_length] at hi
    unfold batEnd at hbehind
    exact hout i (by omega) (.inl (by omega))
  · rw [himage.batEnd, hsize]
    exact h.table
  · have hfooter : MVHD_FOOTER_SIZE = 512 := rfl
    rw [hsize, slice_congr fun i hi => hout _ (by omega) (.inr (by omega))]
    exact h.footer
  · intro b hb
    rw [hoffsets]
    exact h.small b (hmax ▸ hb)
  · rw [hsize, himage.span, sparseBlocks_congr hoffsets hmax]
    exact h.room
  · intro c hc'
    rw [hblock] at hc'
    rw [hmax]
    exact h.cached c hc'
  · intro c hc' hs
    rw [hblock, hc] at hc'
    obtain rfl := Option.some.inj hc'
    exact absurd ((halloc b).mpr ha) hs

theorem addr_congr (himage : SameImage m m') (h : m'.block_offset = m.block_offset) (b k : Nat) :
    addr m' b k = addr m b k := by
  unfold addr
  rw [h, himage.sector_count]

/-- The other blocks hold what they held. -/
theorem Layout.put_others (h : Layout m) (hc : m.curr_block = some b) (ha : Allocated m b)
    (hput : Put m m' b) (hcb : c < m.max_bat_ent) (hne : c ≠ b) (hk : k < m.sect_per_block) :
    blockSector m' c k = blockSector m c k := by
  obtain ⟨himage, hoffsets, hblock, hsize, hout⟩ := hput
  have hother : m.curr_block ≠ some c := by
    rw [hc]
    exact fun h => hne (Option.some.inj h).symm
  by_cases hac : Allocated m c
  · have hapart := h.apart b (h.cached b hc) c hcb ha hac (Ne.symm hne)
    have hbefore := h.before c hcb hac
    have hspan := span_eq m
    refine blockSector_congr h.shape hk (fun i hi => ?_) fun i hi => ?_
    · unfold bitmapOf
      rw [hblock, if_neg hother, if_neg hother, if_pos hac,
        if_pos ((allocated_congr hoffsets c).mpr hac), start_congr hoffsets]
      exact hout _ (by omega) (by omega)
    · obtain ⟨hlow, hhigh⟩ := addr_inside (b := c) hk hi
      rw [addr_congr himage hoffsets]
      exact hout _ (by omega) (by omega)
  · have hlayout := h.put hc ha ⟨himage, hoffsets, hblock, hsize, hout⟩
    rw [blockSector_sparse h hk hac, blockSector_sparse hlayout (by rwa [himage.sect_per_block])
      (fun ha => hac ((allocated_congr hoffsets c).mp ha))]

end blumach.minivhd
