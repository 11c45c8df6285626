-- The masks of a code block, from `codegen_new/codegen.h` and `codegen_block.c`:
-- one bit for each unit that holds code of the block. A block reaches from its
-- first page into the next one, and a page has 64 units: of one byte each in
-- byte mask mode, and of 64 bytes otherwise.
import Mathlib.Data.BitVec

namespace blumach.codegen_block

/-! ## The data -/

def CODEBLOCK_BYTE_MASK : BitVec 16 := 0x20

def PAGE_MASK_MASK : BitVec 32 := 63

def PAGE_MASK_SHIFT : Nat := 6

/-- The fields of a block that the masks depend on. -/
structure codeblock_t where
  pc : BitVec 32
  flags : BitVec 16
  page_mask : BitVec 64
  page_mask2 : BitVec 64

def codeblock_t.byteMask (block : codeblock_t) : Bool :=
  block.flags &&& CODEBLOCK_BYTE_MASK != 0

/-! ## The marking -/

/-- `for (; start <= end; start++) mask |= (uint64_t) 1 << start`. -/
def markUnits (start_pc end_pc : Nat) (mask : BitVec 64) : BitVec 64 :=
  if start_pc ≤ end_pc then markUnits (start_pc + 1) end_pc (mask ||| 1#64 <<< start_pc) else mask
termination_by end_pc + 1 - start_pc

/-- The three cases of `codegen_mark_code_present_multibyte`: the range starts in the
second page, crosses both pages, or lies in the first page only. -/
def markRange (outside : BitVec 32) (unit : BitVec 32 → Nat) (block : codeblock_t)
    (start_pc end_pc : BitVec 32) : codeblock_t :=
  if (start_pc ^^^ block.pc) &&& outside ≠ 0 then
    { block with page_mask2 := markUnits (unit start_pc) (unit end_pc) block.page_mask2 }
  else if (end_pc ^^^ block.pc) &&& outside ≠ 0 then
    { block with
      page_mask := markUnits (unit start_pc) 63 block.page_mask
      page_mask2 := markUnits 0 (unit end_pc) block.page_mask2 }
  else
    { block with page_mask := markUnits (unit start_pc) (unit end_pc) block.page_mask }

def byteUnit (pc : BitVec 32) : Nat := (pc &&& PAGE_MASK_MASK).toNat

def shiftedUnit (pc : BitVec 32) : Nat := ((pc >>> PAGE_MASK_SHIFT) &&& PAGE_MASK_MASK).toNat

def codegen_mark_code_present_multibyte (block : codeblock_t) (start_pc : BitVec 32) (len : Int) :
    codeblock_t :=
  if len ≠ 0 then
    let end_pc := start_pc + BitVec.ofInt 32 (len - 1)
    if block.byteMask then markRange (~~~0x3f) byteUnit block start_pc end_pc
    else markRange (~~~0xfff) shiftedUnit block start_pc end_pc
  else block

/-- The path for one byte. -/
def markByte (outside : BitVec 32) (unit : BitVec 32 → Nat) (block : codeblock_t)
    (start_pc : BitVec 32) : codeblock_t :=
  if (start_pc ^^^ block.pc) &&& outside = 0 then
    { block with page_mask := block.page_mask ||| 1#64 <<< unit start_pc }
  else
    { block with page_mask2 := block.page_mask2 ||| 1#64 <<< unit start_pc }

def codegen_mark_code_present (block : codeblock_t) (start_pc : BitVec 32) (len : Int) :
    codeblock_t :=
  if len = 1 then
    if block.byteMask then markByte (~~~0x3f) byteUnit block start_pc
    else markByte (~~~0xfff) shiftedUnit block start_pc
  else codegen_mark_code_present_multibyte block start_pc len

/-! ## Pages and units -/

/-- The bytes of a unit. -/
def codeblock_t.grain (block : codeblock_t) : Nat := if block.byteMask then 1 else 64

def codeblock_t.pageSize (block : codeblock_t) : Nat := 64 * block.grain

/-- The unit of its page that a byte is in. -/
def codeblock_t.unit (block : codeblock_t) (a : BitVec 32) : Nat := a.toNat / block.grain % 64

/-- The byte is in the page that the block starts in. -/
def codeblock_t.InFirst (block : codeblock_t) (a : BitVec 32) : Prop :=
  a.toNat / block.pageSize = block.pc.toNat / block.pageSize

/-- The byte is in the page after that one. -/
def codeblock_t.InSecond (block : codeblock_t) (a : BitVec 32) : Prop :=
  a.toNat / block.pageSize =
    (block.pc + BitVec.ofNat 32 block.pageSize).toNat / block.pageSize

instance (block : codeblock_t) (a : BitVec 32) : Decidable (block.InFirst a) := by
  unfold codeblock_t.InFirst
  infer_instance

instance (block : codeblock_t) (a : BitVec 32) : Decidable (block.InSecond a) := by
  unfold codeblock_t.InSecond
  infer_instance

/-- The place of a byte behind the start of the first page. -/
def codeblock_t.place (block : codeblock_t) (a : BitVec 32) : Nat :=
  (a.toNat + 2 ^ 32 - block.pc.toNat / block.pageSize * block.pageSize) % 2 ^ 32

section

variable (block : codeblock_t) (a : BitVec 32)

theorem grain_cases : block.grain = 1 ∨ block.grain = 64 := by
  unfold codeblock_t.grain
  split
  · exact Or.inl rfl
  · exact Or.inr rfl

theorem grain_pos : 0 < block.grain := by
  rcases grain_cases block with h | h <;> omega

theorem inFirst_iff : block.InFirst a ↔ block.place a < 64 * block.grain := by
  unfold codeblock_t.InFirst codeblock_t.place codeblock_t.pageSize
  have ha := a.isLt
  have hpc := block.pc.isLt
  rcases grain_cases block with h | h <;> rw [h] <;> omega

theorem inSecond_iff :
    block.InSecond a ↔
      64 * block.grain ≤ block.place a ∧ block.place a < 2 * (64 * block.grain) := by
  unfold codeblock_t.InSecond codeblock_t.place codeblock_t.pageSize
  have ha := a.isLt
  have hpc := block.pc.isLt
  rw [BitVec.toNat_add, BitVec.toNat_ofNat]
  rcases grain_cases block with h | h <;> rw [h] <;> omega

theorem unit_eq : block.unit a = block.place a / block.grain % 64 := by
  unfold codeblock_t.unit codeblock_t.place codeblock_t.pageSize
  have ha := a.isLt
  have hpc := block.pc.isLt
  rcases grain_cases block with h | h <;> rw [h] <;> omega

theorem place_lt : block.place a < 2 ^ 32 := Nat.mod_lt _ (Nat.two_pow_pos 32)

theorem pages_lt : 2 * (64 * block.grain) < 2 ^ 32 := by
  rcases grain_cases block with h | h <;> simp [h]

/-- Behind the start of the first page the places go up with the bytes. -/
theorem place_add {i : Nat} (h : block.place a + i < 2 ^ 32) :
    block.place (a + BitVec.ofNat 32 i) = block.place a + i := by
  unfold codeblock_t.place at *
  have hbase := Nat.div_mul_le_self block.pc.toNat block.pageSize
  have ha := a.isLt
  have hpc := block.pc.isLt
  rw [BitVec.toNat_add, BitVec.toNat_ofNat]
  generalize block.pc.toNat / block.pageSize * block.pageSize = base at *
  omega

/-- The test for the second page, with the mask for pages of `2 ^ n` bytes. -/
theorem outside_iff (pc : BitVec 32) (n : Nat) {outside : BitVec 32}
    (ho : ∀ i < 32, outside.getLsbD i = decide (n ≤ i)) :
    (a ^^^ pc) &&& outside = 0 ↔ a.toNat / 2 ^ n = pc.toNat / 2 ^ n := by
  rw [← Nat.shiftRight_eq_div_pow, ← Nat.shiftRight_eq_div_pow, ← BitVec.toNat_ushiftRight,
    ← BitVec.toNat_ushiftRight, BitVec.toNat_inj]
  constructor
  · intro h
    apply BitVec.eq_of_getLsbD_eq
    intro i _
    rw [BitVec.getLsbD_ushiftRight, BitVec.getLsbD_ushiftRight]
    by_cases hi : n + i < 32
    · have hbit := congrArg (fun x : BitVec 32 => x.getLsbD (n + i)) h
      simp only [BitVec.getLsbD_and, BitVec.getLsbD_xor, ho _ hi] at hbit
      simpa using hbit
    · rw [BitVec.getLsbD_of_ge _ _ (by omega), BitVec.getLsbD_of_ge _ _ (by omega)]
  · intro h
    apply BitVec.eq_of_getLsbD_eq
    intro i hi
    by_cases hn : n ≤ i
    · have hbit := congrArg (fun x : BitVec 32 => x.getLsbD (i - n)) h
      simp only [BitVec.getLsbD_ushiftRight, Nat.add_sub_cancel' hn] at hbit
      simp [hbit]
    · simp [ho i hi, hn]

end

/-! ## The marks of a loop -/

theorem getLsbD_mark (mask : BitVec 64) {u : Nat} (hu : u < 64) (k : Nat) :
    (mask ||| 1#64 <<< u).getLsbD k = (mask.getLsbD k || decide (u = k)) := by
  rw [BitVec.getLsbD_or, BitVec.getLsbD_shiftLeft, BitVec.getLsbD_one]
  congr 1
  by_cases h : u = k
  · subst h
    simp [hu]
  · simp [h]
    omega

theorem markUnits_getLsbD {end_pc : Nat} (he : end_pc < 64) (start_pc : Nat) (mask : BitVec 64)
    (k : Nat) : (markUnits start_pc end_pc mask).getLsbD k =
      (mask.getLsbD k || decide (start_pc ≤ k ∧ k ≤ end_pc)) := by
  induction start_pc, mask using markUnits.induct end_pc with
  | case1 start_pc mask hle ih =>
    rw [markUnits, if_pos hle, ih, getLsbD_mark mask (by omega), Bool.or_assoc]
    congr 1
    rw [← Bool.decide_or, decide_eq_decide]
    omega
  | case2 start_pc mask hgt =>
    rw [markUnits, if_neg hgt]
    have hnone : ¬(start_pc ≤ k ∧ k ≤ end_pc) := by omega
    simp [hnone]

/-- The units of a run of places. -/
theorem exists_in_unit {g s e k : Nat} (hg : 0 < g) (hse : s ≤ e) :
    (∃ x, s ≤ x ∧ x ≤ e ∧ x / g = k) ↔ s / g ≤ k ∧ k ≤ e / g := by
  constructor
  · rintro ⟨x, hsx, hxe, rfl⟩
    exact ⟨Nat.div_le_div_right hsx, Nat.div_le_div_right hxe⟩
  · rintro ⟨hsk, hke⟩
    rw [Nat.le_div_iff_mul_le hg] at hke
    by_cases hs : s ≤ k * g
    · exact ⟨k * g, hs, hke, Nat.mul_div_cancel k hg⟩
    · have hks : k ≤ s / g := (Nat.le_div_iff_mul_le hg).mpr (by omega)
      exact ⟨s, Nat.le_refl s, hse, by omega⟩

/-! ## What a block has marked -/

/-- The units of these bytes are marked, on top of what was, and nothing else. -/
structure Marks (block block' : codeblock_t) (bytes : BitVec 32 → Prop) : Prop where
  pc : block'.pc = block.pc
  flags : block'.flags = block.flags
  page_mask : ∀ k < 64, block'.page_mask.getLsbD k = true ↔
    block.page_mask.getLsbD k = true ∨ ∃ a, bytes a ∧ block.InFirst a ∧ block.unit a = k
  page_mask2 : ∀ k < 64, block'.page_mask2.getLsbD k = true ↔
    block.page_mask2.getLsbD k = true ∨ ∃ a, bytes a ∧ ¬block.InFirst a ∧ block.unit a = k

theorem Marks.none (block : codeblock_t) : Marks block block fun _ => False := by
  refine ⟨rfl, rfl, ?_, ?_⟩ <;> simp

theorem Marks.byteMask_eq {block block' : codeblock_t} {bytes : BitVec 32 → Prop}
    (h : Marks block block' bytes) : block'.byteMask = block.byteMask := by
  rw [codeblock_t.byteMask, codeblock_t.byteMask, h.flags]

theorem Marks.inFirst {block block' : codeblock_t} {bytes : BitVec 32 → Prop}
    (h : Marks block block' bytes) (a : BitVec 32) : block'.InFirst a ↔ block.InFirst a := by
  unfold codeblock_t.InFirst codeblock_t.pageSize codeblock_t.grain
  rw [h.byteMask_eq, h.pc]

theorem Marks.unit {block block' : codeblock_t} {bytes : BitVec 32 → Prop}
    (h : Marks block block' bytes) (a : BitVec 32) : block'.unit a = block.unit a := by
  unfold codeblock_t.unit codeblock_t.grain
  rw [h.byteMask_eq]

theorem Marks.trans {b b' b'' : codeblock_t} {bytes bytes' : BitVec 32 → Prop}
    (h : Marks b b' bytes) (h' : Marks b' b'' bytes') :
    Marks b b'' fun a => bytes a ∨ bytes' a := by
  refine ⟨h'.pc.trans h.pc, h'.flags.trans h.flags, fun k hk => ?_, fun k hk => ?_⟩
  · rw [h'.page_mask k hk, h.page_mask k hk, or_assoc]
    simp only [h.inFirst, h.unit, or_and_right, exists_or]
  · rw [h'.page_mask2 k hk, h.page_mask2 k hk, or_assoc]
    simp only [h.inFirst, h.unit, or_and_right, exists_or]

theorem Marks.congr {block block' : codeblock_t} {bytes bytes' : BitVec 32 → Prop}
    (h : Marks block block' bytes) (hb : ∀ a, bytes a ↔ bytes' a) : Marks block block' bytes' := by
  have heq : bytes = bytes' := funext fun a => propext (hb a)
  exact heq ▸ h

/-- The bytes that are marked decide the masks. -/
theorem Marks.unique {block b b' : codeblock_t} {bytes : BitVec 32 → Prop}
    (h : Marks block b bytes) (h' : Marks block b' bytes) : b = b' := by
  have h1 : b.page_mask = b'.page_mask := by
    apply BitVec.eq_of_getLsbD_eq
    intro k hk
    rw [Bool.eq_iff_iff, h.page_mask k hk, h'.page_mask k hk]
  have h2 : b.page_mask2 = b'.page_mask2 := by
    apply BitVec.eq_of_getLsbD_eq
    intro k hk
    rw [Bool.eq_iff_iff, h.page_mask2 k hk, h'.page_mask2 k hk]
  have hpc := h.pc.trans h'.pc.symm
  have hflags := h.flags.trans h'.flags.symm
  cases b
  cases b'
  simp_all

/-! ## One byte -/

/-- The mask that the code tests the page of a byte with. -/
def codeblock_t.outside (block : codeblock_t) : BitVec 32 :=
  if block.byteMask then ~~~0x3f else ~~~0xfff

theorem outside_test (block : codeblock_t) (a : BitVec 32) :
    (a ^^^ block.pc) &&& block.outside = 0 ↔ block.InFirst a := by
  unfold codeblock_t.outside codeblock_t.InFirst codeblock_t.pageSize codeblock_t.grain
  split
  · exact outside_iff a block.pc 6 (by decide)
  · exact outside_iff a block.pc 12 (by decide)

theorem byteUnit_eq (a : BitVec 32) : byteUnit a = a.toNat % 64 := by
  rw [byteUnit, BitVec.toNat_and]
  exact Nat.and_two_pow_sub_one_eq_mod a.toNat 6

theorem shiftedUnit_eq (a : BitVec 32) : shiftedUnit a = a.toNat / 64 % 64 := by
  rw [shiftedUnit, BitVec.toNat_and, BitVec.toNat_ushiftRight, Nat.shiftRight_eq_div_pow]
  exact Nat.and_two_pow_sub_one_eq_mod _ 6

theorem unit_lt (block : codeblock_t) (a : BitVec 32) : block.unit a < 64 :=
  Nat.mod_lt _ (by omega)

theorem mark_one_eq (block : codeblock_t) (a : BitVec 32) :
    codegen_mark_code_present block a 1 = markByte block.outside block.unit block a := by
  have hb : byteUnit = fun a => a.toNat % 64 := funext byteUnit_eq
  have hs : shiftedUnit = fun a => a.toNat / 64 % 64 := funext shiftedUnit_eq
  rw [codegen_mark_code_present, if_pos rfl, codeblock_t.outside, hb, hs]
  unfold markByte codeblock_t.unit codeblock_t.grain
  cases block.byteMask <;> simp

theorem mark_one (block : codeblock_t) (a : BitVec 32) :
    Marks block (codegen_mark_code_present block a 1) fun x => x = a := by
  rw [mark_one_eq, markByte]
  by_cases hf : block.InFirst a
  · rw [if_pos ((outside_test block a).mpr hf)]
    refine ⟨rfl, rfl, fun k hk => ?_, fun k hk => ?_⟩
    · simp [getLsbD_mark _ (unit_lt block a), hf]
    · simp [hf]
  · rw [if_neg (mt (outside_test block a).mp hf)]
    refine ⟨rfl, rfl, fun k hk => ?_, fun k hk => ?_⟩
    · simp [hf]
    · simp [getLsbD_mark _ (unit_lt block a), hf]

/-- The first bytes of a range. -/
def Covered (start_pc : BitVec 32) (len : Nat) (a : BitVec 32) : Prop :=
  ∃ i < len, a = start_pc + BitVec.ofNat 32 i

theorem mark_each (block : codeblock_t) (start_pc : BitVec 32) (len : Nat) :
    Marks block ((List.range len).foldl
      (fun b i => codegen_mark_code_present b (start_pc + BitVec.ofNat 32 i) 1) block)
      (Covered start_pc len) := by
  induction len with
  | zero =>
    apply (Marks.none block).congr
    intro a
    simp [Covered]
  | succ len ih =>
    rw [List.range_succ, List.foldl_append]
    apply (ih.trans (mark_one _ _)).congr
    intro a
    unfold Covered
    constructor
    · rintro (⟨i, hi, ha⟩ | ha)
      · exact ⟨i, Nat.lt_succ_of_lt hi, ha⟩
      · exact ⟨len, Nat.lt_succ_self len, ha⟩
    · rintro ⟨i, hi, ha⟩
      rcases Nat.lt_succ_iff_lt_or_eq.mp hi with h | rfl
      · exact Or.inl ⟨i, h, ha⟩
      · exact Or.inr ha

/-! ## A range -/

section

variable {block : codeblock_t} {start_pc : BitVec 32} {len : Nat}

/-- A range that stays in the two pages ends before the second one does. -/
theorem place_end (h : ∀ i < len, block.InFirst (start_pc + BitVec.ofNat 32 i) ∨
    block.InSecond (start_pc + BitVec.ofNat 32 i)) (hlen : 0 < len) :
    block.place start_pc + len ≤ 2 * (64 * block.grain) := by
  have hplace : ∀ i < len, block.place (start_pc + BitVec.ofNat 32 i) < 2 * (64 * block.grain) := by
    intro i hi
    rcases h i hi with hf | hs
    · have := (inFirst_iff block _).mp hf
      omega
    · exact ((inSecond_iff block _).mp hs).2
  have hsize := pages_lt block
  have h0 := hplace 0 hlen
  have hstart := place_lt block start_pc
  rw [place_add block start_pc (by rwa [Nat.add_zero])] at h0
  by_contra hlt
  -- The first byte behind the second page would be in the range.
  have hi := hplace (2 * (64 * block.grain) - block.place start_pc) (by omega)
  rw [place_add block start_pc (by omega)] at hi
  omega

/-- The places of the bytes of a range. -/
theorem exists_covered (hlen : 0 < len)
    (hend : block.place start_pc + len ≤ 2 * (64 * block.grain)) (p : Nat → Prop) :
    (∃ a, Covered start_pc len a ∧ p (block.place a)) ↔
      ∃ x, block.place start_pc ≤ x ∧ x ≤ block.place start_pc + (len - 1) ∧ p x := by
  have hsize := pages_lt block
  have hplace : ∀ i < len, block.place (start_pc + BitVec.ofNat 32 i) = block.place start_pc + i :=
    fun i hi => place_add block start_pc (by omega)
  constructor
  · rintro ⟨_, ⟨i, hi, rfl⟩, hp⟩
    rw [hplace i hi] at hp
    exact ⟨_, by omega, by omega, hp⟩
  · rintro ⟨x, hsx, hxe, hp⟩
    refine ⟨_, ⟨x - block.place start_pc, by omega, rfl⟩, ?_⟩
    rwa [hplace _ (by omega), Nat.add_sub_cancel' hsx]

theorem mark_multibyte_eq (hlen : len ≠ 0) :
    codegen_mark_code_present_multibyte block start_pc len =
      markRange block.outside block.unit block start_pc
        (start_pc + BitVec.ofNat 32 (len - 1)) := by
  have hb : byteUnit = fun a => a.toNat % 64 := funext byteUnit_eq
  have hs : shiftedUnit = fun a => a.toNat / 64 % 64 := funext shiftedUnit_eq
  have hofInt : BitVec.ofInt 32 ((len : Int) - 1) = BitVec.ofNat 32 (len - 1) := by
    rw [show (len : Int) - 1 = ((len - 1 : Nat) : Int) by omega, BitVec.ofInt_natCast]
  rw [codegen_mark_code_present_multibyte, if_pos (by omega), hofInt, codeblock_t.outside, hb, hs]
  unfold markRange codeblock_t.unit codeblock_t.grain
  cases block.byteMask <;> simp

/-- A unit of the first page is the quotient of its places. -/
theorem covered_in_first (hlen : 0 < len)
    (hend : block.place start_pc + len ≤ 2 * (64 * block.grain)) {k : Nat} (hk : k < 64) :
    (∃ a, Covered start_pc len a ∧ block.InFirst a ∧ block.unit a = k) ↔
      block.place start_pc / block.grain ≤ k ∧
        k ≤ (block.place start_pc + (len - 1)) / block.grain := by
  have hg := grain_pos block
  rw [← exists_in_unit hg (Nat.le_add_right _ _)]
  have hbits : ∀ x, (x < 64 * block.grain ∧ x / block.grain % 64 = k) ↔ x / block.grain = k := by
    intro x
    rw [← Nat.div_lt_iff_lt_mul hg]
    generalize x / block.grain = q
    omega
  simp only [inFirst_iff, unit_eq]
  rw [exists_covered hlen hend fun x => x < 64 * block.grain ∧ x / block.grain % 64 = k]
  simp only [hbits]

/-- One of the second page is 64 less. -/
theorem covered_in_second (hlen : 0 < len)
    (hend : block.place start_pc + len ≤ 2 * (64 * block.grain)) {k : Nat} (hk : k < 64) :
    (∃ a, Covered start_pc len a ∧ ¬block.InFirst a ∧ block.unit a = k) ↔
      block.place start_pc / block.grain ≤ k + 64 ∧
        k + 64 ≤ (block.place start_pc + (len - 1)) / block.grain := by
  have hg := grain_pos block
  rw [← exists_in_unit hg (Nat.le_add_right _ _)]
  have hbits : ∀ x ≤ block.place start_pc + (len - 1),
      (¬x < 64 * block.grain ∧ x / block.grain % 64 = k) ↔ x / block.grain = k + 64 := by
    intro x hx
    have hlt : x / block.grain < 128 := by
      rw [Nat.div_lt_iff_lt_mul hg]
      omega
    rw [← Nat.div_lt_iff_lt_mul hg]
    generalize x / block.grain = q at *
    omega
  simp only [inFirst_iff, unit_eq]
  rw [exists_covered hlen hend fun x => ¬x < 64 * block.grain ∧ x / block.grain % 64 = k]
  constructor
  · rintro ⟨x, hsx, hxe, hx⟩
    exact ⟨x, hsx, hxe, (hbits x hxe).mp hx⟩
  · rintro ⟨x, hsx, hxe, hx⟩
    exact ⟨x, hsx, hxe, (hbits x hxe).mpr hx⟩

/-- The marks of a range from one unit to another, in the three cases of its ends. -/
theorem mark_range (hlen : 0 < len)
    (hend : block.place start_pc + len ≤ 2 * (64 * block.grain)) :
    Marks block (codegen_mark_code_present_multibyte block start_pc len)
      (Covered start_pc len) := by
  have hg := grain_pos block
  have hsize := pages_lt block
  have hse : block.place start_pc ≤ block.place start_pc + (len - 1) := Nat.le_add_right _ _
  have hplace : block.place (start_pc + BitVec.ofNat 32 (len - 1)) =
      block.place start_pc + (len - 1) := place_add block start_pc (by omega)
  have hfirst := fun k hk => covered_in_first (k := k) hlen hend hk
  have hsecond := fun k hk => covered_in_second (k := k) hlen hend hk
  have hs : block.InFirst start_pc ↔ block.place start_pc / block.grain < 64 := by
    rw [inFirst_iff, Nat.div_lt_iff_lt_mul hg]
  have he : block.InFirst (start_pc + BitVec.ofNat 32 (len - 1)) ↔
      (block.place start_pc + (len - 1)) / block.grain < 64 := by
    rw [inFirst_iff, hplace, Nat.div_lt_iff_lt_mul hg]
  have hus := unit_eq block start_pc
  have hue := unit_eq block (start_pc + BitVec.ofNat 32 (len - 1))
  rw [hplace] at hue
  have hle : block.place start_pc / block.grain ≤
      (block.place start_pc + (len - 1)) / block.grain := Nat.div_le_div_right hse
  have hlt : (block.place start_pc + (len - 1)) / block.grain < 128 := by
    rw [Nat.div_lt_iff_lt_mul hg]
    omega
  have hu1 := unit_lt block start_pc
  have hu2 := unit_lt block (start_pc + BitVec.ofNat 32 (len - 1))
  rw [mark_multibyte_eq (by omega), markRange]
  generalize block.place start_pc / block.grain = u at *
  generalize (block.place start_pc + (len - 1)) / block.grain = v at *
  split
  · rename_i hout
    rw [ne_eq, outside_test, hs] at hout
    refine ⟨rfl, rfl, fun k hk => ?_, fun k hk => ?_⟩
    · rw [hfirst k hk]
      simp
      omega
    · rw [hsecond k hk, markUnits_getLsbD hu2, Bool.or_eq_true, decide_eq_true_eq]
      apply or_congr_right
      omega
  · rename_i hin
    rw [ne_eq, not_not, outside_test, hs] at hin
    split
    · rename_i hout
      rw [ne_eq, outside_test, he] at hout
      refine ⟨rfl, rfl, fun k hk => ?_, fun k hk => ?_⟩
      · rw [hfirst k hk, markUnits_getLsbD (by omega), Bool.or_eq_true, decide_eq_true_eq]
        apply or_congr_right
        omega
      · rw [hsecond k hk, markUnits_getLsbD hu2, Bool.or_eq_true, decide_eq_true_eq]
        apply or_congr_right
        omega
    · rename_i hin'
      rw [ne_eq, not_not, outside_test, he] at hin'
      refine ⟨rfl, rfl, fun k hk => ?_, fun k hk => ?_⟩
      · rw [hfirst k hk, markUnits_getLsbD hu2, Bool.or_eq_true, decide_eq_true_eq]
        apply or_congr_right
        omega
      · rw [hsecond k hk]
        simp
        omega

/-- A call marks the units of the bytes of its range, in the page of each, as one call for
each of the bytes would. -/
theorem marking_covers_the_bytes
    (h : ∀ i < len, block.InFirst (start_pc + BitVec.ofNat 32 i) ∨
      block.InSecond (start_pc + BitVec.ofNat 32 i)) :
    (∀ k < 64, (codegen_mark_code_present block start_pc len).page_mask.getLsbD k = true ↔
      block.page_mask.getLsbD k = true ∨
        ∃ a, Covered start_pc len a ∧ block.InFirst a ∧ block.unit a = k) ∧
    (∀ k < 64, (codegen_mark_code_present block start_pc len).page_mask2.getLsbD k = true ↔
      block.page_mask2.getLsbD k = true ∨
        ∃ a, Covered start_pc len a ∧ block.InSecond a ∧ block.unit a = k) ∧
    codegen_mark_code_present block start_pc len =
      (List.range len).foldl
        (fun b i => codegen_mark_code_present b (start_pc + BitVec.ofNat 32 i) 1) block := by
  have hsecond : ∀ a, Covered start_pc len a → (¬block.InFirst a ↔ block.InSecond a) := by
    rintro _ ⟨i, hi, rfl⟩
    have hor := h i hi
    rw [inFirst_iff, inSecond_iff] at *
    omega
  have hmark : Marks block (codegen_mark_code_present block start_pc len)
      (Covered start_pc len) := by
    rcases Nat.lt_trichotomy len 1 with hlt | rfl | hgt
    · obtain rfl : len = 0 := by omega
      apply (Marks.none block).congr
      intro a
      simp [Covered]
    · apply (mark_one block start_pc).congr
      intro a
      simp [Covered]
    · have hend := place_end h (by omega)
      rw [codegen_mark_code_present, if_neg (by omega)]
      exact mark_range (by omega) hend
  refine ⟨hmark.page_mask, fun k hk => ?_, hmark.unique (mark_each block start_pc len)⟩
  rw [hmark.page_mask2 k hk]
  apply or_congr_right
  constructor
  · rintro ⟨a, ha, hf, hu⟩
    exact ⟨a, ha, (hsecond a ha).mp hf, hu⟩
  · rintro ⟨a, ha, hs, hu⟩
    exact ⟨a, ha, (hsecond a ha).mpr hs, hu⟩

end

/-- A range of four bytes over the end of the first page, in byte mask mode. -/
theorem marking_across_a_page :
    (codegen_mark_code_present ⟨0x1000, 0x20, 0, 0⟩ 0x103e 4).page_mask.getLsbD 63 = true ∧
    (codegen_mark_code_present ⟨0x1000, 0x20, 0, 0⟩ 0x103e 4).page_mask2.getLsbD 1 = true := by
  obtain ⟨h1, h2, -⟩ := @marking_covers_the_bytes ⟨0x1000, 0x20, 0, 0⟩ 0x103e 4 (by decide)
  exact ⟨(h1 63 (by decide)).mpr (Or.inr ⟨0x103f, ⟨1, by decide, rfl⟩, by decide, rfl⟩),
    (h2 1 (by decide)).mpr (Or.inr ⟨0x1041, ⟨3, by decide, rfl⟩, by decide, rfl⟩)⟩

end blumach.codegen_block
