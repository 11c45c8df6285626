-- The laws of the tracked writes. Each write ends in one of two ways: nothing had to be done, or
-- the bytes are stored and the masks that it built are in the masks of the page. What is left is
-- that the masks of each width reach every byte that was written.
import BluMach.EvictListLaws
import BluMach.PageWrite

namespace blumach.page_write

open evict_list little_endian

/-! ## The list -/

/-- The list is as it was, or the page was not in it and was added. -/
def ListKept (page : Nat) (l l' : EvictState) : Prop :=
  SameList l l' ∨ ¬InList l page ∧ SameList (page_add_to_evict_list page l) l'

section

variable {page : Nat} {l l' l'' : EvictState}

theorem same_trans (h : SameList l l') (h' : SameList l' l'') : SameList l l'' where
  evict_prev p := (h'.evict_prev p).trans (h.evict_prev p)
  evict_next p := (h'.evict_next p).trans (h.evict_next p)
  head := h'.head.trans h.head
  count := h'.count.trans h.count

theorem add_same (h : SameList l l') :
    SameList (page_add_to_evict_list page l) (page_add_to_evict_list page l') where
  evict_prev p := by
    rw [add_prev, add_prev, h.head, h.evict_prev]
  evict_next p := by
    rw [add_next, add_next, h.head, h.evict_next]
  head := by
    unfold page_add_to_evict_list
    simp only [setPrev_prev, setNext_prev, setPrev_head, setNext_head, h.head]
    rfl
  count := by
    unfold page_add_to_evict_list
    simp only [setPrev_count, setNext_count, h.count]

theorem ListKept.stays (h : ListKept page l l') {q : Nat} (hq : InList l q) : InList l' q := by
  rcases h with h | ⟨-, h⟩
  · exact (h.inList q).mpr hq
  · rw [h.inList, add_inList]
    exact Or.inr (Or.inr hq)

/-- A page that is added is in the list, so no step after it adds it again. -/
theorem ListKept.trans (h : ListKept page l l') (h' : ListKept page l' l'') :
    ListKept page l l'' := by
  rcases h with h | ⟨hnot, h⟩
  · rcases h' with h' | ⟨hnot', h'⟩
    · exact Or.inl (same_trans h h')
    · refine Or.inr ⟨fun hin => hnot' ((h.inList page).mpr hin), ?_⟩
      exact same_trans (add_same h) h'
  · rcases h' with h' | ⟨hnot', -⟩
    · exact Or.inr ⟨hnot, same_trans h h'⟩
    · refine absurd ?_ hnot'
      rw [h.inList, add_inList]
      exact Or.inl rfl

end

/-! ## The masks -/

/-- The masks with more of the units and of the bytes dirty. -/
def marked (units : BitVec 64) (bytes : Fin 64 → BitVec 64) (m : Masks) : Masks :=
  { m with
    dirty_mask := m.dirty_mask ||| units
    byte_dirty_mask := fun c => m.byte_dirty_mask c ||| bytes c }

/-- One word of the byte masks. -/
def word (offset : Nat) (mask : BitVec 64) : Fin 64 → BitVec 64 :=
  fun c => if c.val = offset then mask else 0

/-- What a part of a write does to the pages: the units and bytes of its masks are dirty as well,
and with code in one of them the page is in the list. -/
structure Marks (page : Nat) (units : BitVec 64) (bytes : Fin 64 → BitVec 64)
    (l l' : EvictState) : Prop where
  masks : (l'.pages page).toMasks = marked units bytes (l.pages page).toMasks
  others : ∀ q, q ≠ page → (l'.pages q).toMasks = (l.pages q).toMasks
  list : ListKept page l l'
  unit : (l.pages page).code_present_mask &&& units ≠ 0 → InList l' page
  byte : ∀ c, (l.pages page).byte_code_present_mask c &&& bytes c ≠ 0 → InList l' page

section

variable {page : Nat} {l l' l'' : EvictState} {units units' : BitVec 64}
  {bytes bytes' : Fin 64 → BitVec 64}

theorem setMasks_masks (q : Nat) (m : Masks) :
    ((setMasks page m l).pages q).toMasks = if q = page then m else (l.pages q).toMasks := by
  unfold setMasks
  by_cases h : q = page
  · subst h
    simp
  · simp [h]

theorem add_masks (q : Nat) :
    ((page_add_to_evict_list page l).pages q).toMasks = (l.pages q).toMasks := by
  have hprev : ∀ (p : Nat) (prev : Option Nat) (l : EvictState),
      ((setPrev p prev l).pages q).toMasks = (l.pages q).toMasks := by
    intro p prev l
    unfold setPrev
    by_cases h : q = p
    · subst h
      simp
    · simp [h]
  have hnext : ∀ (p : Nat) (next : Nat) (l : EvictState),
      ((setNext p next l).pages q).toMasks = (l.pages q).toMasks := by
    intro p next l
    unfold setNext
    by_cases h : q = p
    · subst h
      simp
    · simp [h]
  unfold page_add_to_evict_list
  dsimp only
  rw [hprev, hnext, hprev]

theorem addIf_masks (code : Bool) (q : Nat) :
    ((addIf code page l).pages q).toMasks = (l.pages q).toMasks := by
  unfold addIf
  split_ifs
  · exact add_masks q
  · rfl

theorem addIf_kept (code : Bool) : ListKept page l (addIf code page l) := by
  unfold addIf
  split_ifs with h
  · refine Or.inr ⟨?_, fun _ => rfl, fun _ => rfl, rfl, rfl⟩
    unfold InList
    simp at h
    simp [h.2]
  · exact Or.inl ⟨fun _ => rfl, fun _ => rfl, rfl, rfl⟩

theorem addIf_in {code : Bool} (h : code = true) : InList (addIf code page l) page := by
  unfold addIf
  subst h
  split_ifs with hin
  · rw [add_inList]
    exact Or.inl rfl
  · unfold InList
    simpa using hin

/-- The masks are stored, and then the page is added if there is code in what they mark. -/
theorem marks_of (l : EvictState) (code : Bool)
    (hunit : (l.pages page).code_present_mask &&& units ≠ 0 → code = true)
    (hbyte : ∀ c, (l.pages page).byte_code_present_mask c &&& bytes c ≠ 0 → code = true) :
    Marks page units bytes l
      (addIf code page (setMasks page (marked units bytes (l.pages page).toMasks) l)) where
  masks := by
    rw [addIf_masks, setMasks_masks, if_pos rfl]
  others q hq := by
    rw [addIf_masks, setMasks_masks, if_neg hq]
  list := ListKept.trans (Or.inl (setMasks_same page _ l)) (addIf_kept code)
  unit h := addIf_in (hunit h)
  byte c h := addIf_in (hbyte c h)

theorem and_or_ne {a x y : BitVec 64} (h : a &&& (x ||| y) ≠ 0) : a &&& x ≠ 0 ∨ a &&& y ≠ 0 := by
  by_cases hx : a &&& x = 0
  · refine Or.inr fun hy => h ?_
    rw [BitVec.and_or_distrib_left, hx, hy]
    rfl
  · exact Or.inl hx

theorem Marks.code (h : Marks page units bytes l l') :
    (l'.pages page).code_present_mask = (l.pages page).code_present_mask := by
  have hsame := congrArg Masks.code_present_mask h.masks
  exact hsame

theorem Marks.byteCode (h : Marks page units bytes l l') :
    (l'.pages page).byte_code_present_mask = (l.pages page).byte_code_present_mask := by
  have hsame := congrArg Masks.byte_code_present_mask h.masks
  exact hsame

theorem Marks.trans (h : Marks page units bytes l l') (h' : Marks page units' bytes' l' l'') :
    Marks page (units ||| units') (fun c => bytes c ||| bytes' c) l l'' where
  masks := by
    rw [h'.masks, h.masks]
    unfold marked
    simp only [BitVec.or_assoc]
  others q hq := (h'.others q hq).trans (h.others q hq)
  list := h.list.trans h'.list
  unit hc := by
    rcases and_or_ne hc with hc | hc
    · exact h'.list.stays (h.unit hc)
    · rw [← h.code] at hc
      exact h'.unit hc
  byte c hc := by
    rcases and_or_ne hc with hc | hc
    · exact h'.list.stays (h.byte c hc)
    · rw [← h.byteCode] at hc
      exact h'.byte c hc

theorem Marks.then_bytes (h : Marks page units bytes l l') (h' : Marks page 0 bytes' l' l'') :
    Marks page units (fun c => bytes c ||| bytes' c) l l'' := by
  have hboth := h.trans h'
  rwa [show units ||| 0 = units from BitVec.or_zero] at hboth

theorem Marks.then_first (h : Marks page units (fun _ => 0) l l')
    (h' : Marks page 0 bytes' l' l'') : Marks page units bytes' l l'' := by
  have hboth := h.then_bytes h'
  have hsame : (fun c => (0 : BitVec 64) ||| bytes' c) = bytes' := by
    funext c
    exact BitVec.zero_or
  rwa [hsame] at hboth

/-- The page keeps its byte masks. -/
theorem Marks.has (h : Marks page units bytes l l') (hm : (l.pages page).has_byte_mask = true) :
    (l'.pages page).has_byte_mask = true := by
  have hsame := congrArg Masks.has_byte_mask h.masks
  exact hsame.trans hm

/-! ## The parts of a write -/

theorem dirtyUnits_eq (mask : BitVec 64) :
    dirtyUnits page mask l =
      setMasks page (marked mask (fun _ => 0) (l.pages page).toMasks) l := by
  unfold dirtyUnits marked
  simp

theorem dirtyBytes_eq {offset : Nat} (mask : BitVec 64) (ho : offset < 64)
    (hm : (l.pages page).has_byte_mask = true) :
    dirtyBytes page offset mask l =
      some (setMasks page (marked 0 (word offset mask) (l.pages page).toMasks) l) := by
  have hwords : Function.update (l.pages page).byte_dirty_mask ⟨offset, ho⟩
      ((l.pages page).byte_dirty_mask ⟨offset, ho⟩ ||| mask) =
        fun c => (l.pages page).byte_dirty_mask c ||| word offset mask c := by
    funext c
    unfold word
    by_cases hc : c = ⟨offset, ho⟩
    · subst hc
      simp
    · have hne : c.val ≠ offset := fun h => hc (Fin.ext h)
      rw [Function.update_of_ne hc, if_neg hne]
      simp
  unfold dirtyBytes marked
  dsimp only
  rw [dif_pos ⟨ho, hm⟩, hwords]
  simp

theorem word_code {offset : Nat} {mask : BitVec 64} (ho : offset < 64) {c : Fin 64}
    (h : (l.pages page).byte_code_present_mask c &&& word offset mask c ≠ 0) :
    codeInBytes page offset mask l = true := by
  unfold word at h
  unfold codeInBytes
  split_ifs at h with hc
  · have hce : c = ⟨offset, ho⟩ := Fin.ext hc
    subst hce
    rw [dif_pos ho]
    simpa using h
  · simp at h

/-- `dirty_mask` and the first look at the list. -/
theorem units_marks (page : Nat) (mask : BitVec 64) (l : EvictState) :
    Marks page mask (fun _ => 0) l
      (addIf (codeInUnits page mask (dirtyUnits page mask l)) page (dirtyUnits page mask l)) := by
  have hcode : codeInUnits page mask (dirtyUnits page mask l) = codeInUnits page mask l := by
    unfold codeInUnits dirtyUnits
    simp [setMasks]
  rw [hcode, dirtyUnits_eq]
  refine marks_of l _ (fun h => ?_) (fun c h => ?_)
  · unfold codeInUnits
    simpa using h
  · simp at h

/-- A word of `byte_dirty_mask` and a look at the list. -/
theorem bytes_marks {offset : Nat} (mask : BitVec 64) (ho : offset < 64)
    (hm : (l.pages page).has_byte_mask = true) :
    ∃ l', dirtyBytes page offset mask l = some l' ∧
      Marks page 0 (word offset mask) l (addIf (codeInBytes page offset mask l') page l') := by
  refine ⟨_, dirtyBytes_eq mask ho hm, ?_⟩
  refine marks_of l _ (fun h => ?_) (fun c h => ?_)
  · simp at h
  · rw [← word_code ho h]
    unfold codeInBytes
    rw [dif_pos ho, dif_pos ho]
    have hsame : ((setMasks page (marked 0 (word offset mask) (l.pages page).toMasks) l).pages
        page).byte_code_present_mask = (l.pages page).byte_code_present_mask := by
      simp [setMasks, marked]
    rw [hsame]

end

/-! ## What the masks reach -/

def byteIn (addr : BitVec 32) : Nat := (addr &&& 63).toNat

/-- Each of the `n` bytes has its unit and its byte in the masks. -/
def Reaches (n : Nat) (addr : BitVec 32) (units : BitVec 64) (bytes : Fin 64 → BitVec 64) : Prop :=
  ∀ c i : Fin 64, pageOffset addr ≤ 64 * c.val + i.val →
    64 * c.val + i.val < pageOffset addr + n →
    units.getLsbD c = true ∧ (bytes c).getLsbD i = true

section

variable {addr : BitVec 32}

theorem and_low (k : Nat) (hk : k ≤ 32) :
    (addr &&& BitVec.ofNat 32 (2 ^ k - 1)).toNat = addr.toNat % 2 ^ k := by
  have hle : 2 ^ k ≤ 2 ^ 32 := Nat.pow_le_pow_right (by omega) hk
  have hpos := Nat.two_pow_pos k
  rw [BitVec.toNat_and, BitVec.toNat_ofNat, Nat.mod_eq_of_lt (by omega : 2 ^ k - 1 < 2 ^ 32),
    Nat.and_two_pow_sub_one_eq_mod]

theorem byteIn_eq (addr : BitVec 32) : byteIn addr = addr.toNat % 64 := and_low 6 (by omega)

theorem byteOffset_eq : byteOffset addr = addr.toNat / 64 % 64 := by
  have h : byteOffset addr = (addr >>> 6).toNat % 64 := and_low 6 (by omega)
  rw [h, BitVec.toNat_ushiftRight, Nat.shiftRight_eq_div_pow]

theorem pageOffset_eq : pageOffset addr = 64 * byteOffset addr + byteIn addr := by
  have h : pageOffset addr = addr.toNat % 4096 := and_low 12 (by omega)
  rw [h, byteOffset_eq, byteIn_eq]
  omega

theorem byteOffset_lt (addr : BitVec 32) : byteOffset addr < 64 := by
  rw [byteOffset_eq]
  omega

theorem byteIn_lt (addr : BitVec 32) : byteIn addr < 64 := by
  rw [byteIn_eq]
  omega

/-- A byte of the write is among the 64 of its first byte, or among the next 64. -/
theorem place_cases {n : Nat} (hn : n ≤ 64) {c i : Fin 64}
    (h : pageOffset addr ≤ 64 * c.val + i.val) (h' : 64 * c.val + i.val < pageOffset addr + n) :
    (c.val = byteOffset addr ∧ byteIn addr ≤ i.val ∧ i.val < byteIn addr + n) ∨
    (c.val = byteOffset addr + 1 ∧ i.val + 64 < byteIn addr + n) := by
  have hc := c.isLt
  have hi := i.isLt
  have hb := byteIn_lt addr
  rw [pageOffset_eq] at h h'
  omega

theorem unitMask_self : (unitMask addr).getLsbD (byteOffset addr) = true := by
  have hlt := byteOffset_lt addr
  have h : unitMask addr = 1#64 <<< byteOffset addr := rfl
  rw [h, BitVec.getLsbD_shiftLeft]
  simp [hlt]

theorem unitMask_next (h : byteOffset addr + 1 < 64) :
    (unitMask addr <<< 1).getLsbD (byteOffset addr + 1) = true := by
  rw [BitVec.getLsbD_shiftLeft, Nat.add_sub_cancel, unitMask_self]
  simp [h]

theorem byteMask_bit {bits : BitVec 64} {i : Nat} (hi : i < 64) (h : byteIn addr ≤ i)
    (hb : bits.getLsbD (i - byteIn addr) = true) : (byteMask bits addr).getLsbD i = true := by
  have he : byteMask bits addr = bits <<< byteIn addr := rfl
  have hnot : ¬i < byteIn addr := by omega
  rw [he, BitVec.getLsbD_shiftLeft, hb]
  simp [hi, hnot]

theorem four_bits {i : Nat} (h : i < 4) : (0xf#64).getLsbD i = true := by
  have hall : ∀ j : Fin 4, (0xf#64).getLsbD j = true := by decide
  exact hall ⟨i, h⟩

theorem word_self {offset : Nat} {mask : BitVec 64} {c : Fin 64} (h : c.val = offset) :
    word offset mask c = mask := by
  unfold word
  rw [if_pos h]

theorem or_bit {x y : BitVec 64} {i : Nat} (h : x.getLsbD i = true ∨ y.getLsbD i = true) :
    (x ||| y).getLsbD i = true := by
  rw [BitVec.getLsbD_or]
  rcases h with h | h
  · simp [h]
  · simp [h]

theorem byte_reaches :
    Reaches 1 addr (unitMask addr) (word (byteOffset addr) (byteMask 1 addr)) := by
  intro c i h h'
  rcases place_cases (by omega) h h' with ⟨hc, hi, hi'⟩ | ⟨-, hi⟩
  · have hzero : i.val - byteIn addr = 0 := by omega
    rw [word_self hc, hc]
    refine ⟨unitMask_self, byteMask_bit i.isLt hi ?_⟩
    rw [hzero]
    rfl
  · have hb := byteIn_lt addr
    omega

theorem wordUnitMask_self : (wordUnitMask addr).getLsbD (byteOffset addr) = true := by
  unfold wordUnitMask
  dsimp only
  split_ifs
  · exact or_bit (Or.inl unitMask_self)
  · exact unitMask_self

theorem longUnitMask_self : (longUnitMask addr).getLsbD (byteOffset addr) = true := by
  unfold longUnitMask
  dsimp only
  split_ifs
  · exact or_bit (Or.inl unitMask_self)
  · exact unitMask_self

/-- The last byte of the 64 is also the last of 16, so the mask has the next unit. -/
theorem wordUnitMask_next (hlast : byteIn addr = 63) (h : byteOffset addr + 1 < 64) :
    (wordUnitMask addr).getLsbD (byteOffset addr + 1) = true := by
  have hand : (addr &&& 0xf).toNat = addr.toNat % 16 := and_low 4 (by omega)
  have h15 : addr &&& 0xf = 0xf := by
    apply BitVec.eq_of_toNat_eq
    rw [hand]
    rw [byteIn_eq] at hlast
    show _ = 15
    omega
  unfold wordUnitMask
  dsimp only
  rw [if_pos h15]
  exact or_bit (Or.inr (unitMask_next h))

theorem longUnitMask_next (hlast : 61 ≤ byteIn addr) (h : byteOffset addr + 1 < 64) :
    (longUnitMask addr).getLsbD (byteOffset addr + 1) = true := by
  have hand : (addr &&& 0xf).toNat = addr.toNat % 16 := and_low 4 (by omega)
  have h13 : addr &&& 0xf ≥ 0xd := by
    rw [ge_iff_le, BitVec.le_def, hand]
    rw [byteIn_eq] at hlast
    show 13 ≤ _
    omega
  unfold longUnitMask
  dsimp only
  rw [if_pos h13]
  exact or_bit (Or.inr (unitMask_next h))

/-- A word that is not the last byte of the 64 has both of its bytes in them. -/
theorem word_reaches (h : ¬byteIn addr = 63) :
    Reaches 2 addr (wordUnitMask addr)
      (word (byteOffset addr) (byteMask 1 addr ||| byteMask 1 addr <<< 1)) := by
  intro c i hl hr
  have hb := byteIn_lt addr
  rcases place_cases (by omega) hl hr with ⟨hc, hi, hi'⟩ | ⟨-, hi⟩
  · rw [word_self hc, hc]
    refine ⟨wordUnitMask_self, or_bit ?_⟩
    by_cases he : i.val = byteIn addr
    · refine Or.inl (byteMask_bit i.isLt hi ?_)
      rw [he, Nat.sub_self]
      rfl
    · refine Or.inr ?_
      have hpos : ¬i.val < 1 := by omega
      have hfirst : (byteMask 1 addr).getLsbD (i.val - 1) = true := by
        refine byteMask_bit (by omega) (by omega) ?_
        have hz : i.val - 1 - byteIn addr = 0 := by omega
        rw [hz]
        rfl
      rw [BitVec.getLsbD_shiftLeft, hfirst]
      simp [hpos]
  · omega

/-- A word at the last byte of the 64 has its second byte in the next 64. -/
theorem word_reaches_next (h : byteIn addr = 63) :
    Reaches 2 addr (wordUnitMask addr)
      (fun c => word (byteOffset addr + 1) 1 c ||| word (byteOffset addr) (byteMask 1 addr) c) := by
  intro c i hl hr
  have hclt := c.isLt
  rcases place_cases (by omega) hl hr with ⟨hc, hi, hi'⟩ | ⟨hc, hi⟩
  · have hie : i.val - byteIn addr = 0 := by omega
    dsimp only
    rw [word_self hc, hc]
    refine ⟨wordUnitMask_self, or_bit (Or.inr (byteMask_bit i.isLt hi ?_))⟩
    rw [hie]
    rfl
  · have hie : i.val = 0 := by omega
    dsimp only
    rw [word_self hc, hc, hie]
    exact ⟨wordUnitMask_next h (by omega), or_bit (Or.inl rfl)⟩

theorem long_reaches (h : byteIn addr ≤ 60) :
    Reaches 4 addr (longUnitMask addr) (word (byteOffset addr) (byteMask 0xf addr)) := by
  intro c i hl hr
  rcases place_cases (by omega) hl hr with ⟨hc, hi, hi'⟩ | ⟨-, hi⟩
  · rw [word_self hc, hc]
    exact ⟨longUnitMask_self, byteMask_bit i.isLt hi (four_bits (by omega))⟩
  · omega

theorem long_reaches_next (h : 60 < byteIn addr) :
    Reaches 4 addr (longUnitMask addr)
      (fun c => word (byteOffset addr) (byteMask 0xf addr) c |||
        word (byteOffset addr + 1) (restMask addr) c) := by
  intro c i hl hr
  have hclt := c.isLt
  rcases place_cases (by omega) hl hr with ⟨hc, hi, hi'⟩ | ⟨hc, hi⟩
  · dsimp only
    rw [word_self hc, hc]
    refine ⟨longUnitMask_self, or_bit (Or.inl (byteMask_bit i.isLt hi (four_bits (by omega))))⟩
  · have hand : (addr &&& 3).toNat = addr.toNat % 4 := and_low 2 (by omega)
    have hin := byteIn_eq addr
    dsimp only
    rw [word_self hc, hc]
    refine ⟨longUnitMask_next (by omega) (by omega), or_bit (Or.inr ?_)⟩
    unfold restMask
    rw [BitVec.getLsbD_ushiftRight, hand]
    exact four_bits (by omega)

end

/-! ## The writes -/

/-- What a write leaves: the bytes are in the page, and either the pages are as they were, with
nothing to change in the bytes, or they are marked with masks that reach each byte. -/
structure Stored (n val : Nat) (addr : BitVec 32) (page : Nat) (bytes : Nat → BitVec 8)
    (s s' : WriteState) : Prop where
  stored : s'.bytesOf page = some (poke n val (pageOffset addr) bytes)
  others : ∀ q, q ≠ page → s'.mem q = s.mem q
  pages : (s'.list = s.list ∧ poke n val (pageOffset addr) bytes = bytes) ∨
    ∃ units masks, Reaches n addr units masks ∧ Marks page units masks s.list s'.list

section

variable {n val page : Nat} {addr : BitVec 32} {bytes : Nat → BitVec 8} {s : WriteState}

/-- No write is left out that would change a byte. -/
theorem mustWrite_not (hb : s.bytesOf page = some bytes) (h : ¬mustWrite page n val addr s = true) :
    Stored n val addr page bytes s s := by
  unfold mustWrite at h
  unfold WriteState.bytesOf at hb
  split at h
  · exact absurd rfl h
  · exact absurd rfl h
  next stored hmem =>
    rw [hmem] at hb
    obtain rfl := Option.some.inj hb
    simp only [Bool.or_eq_true, decide_eq_true_eq, not_or, not_not, ne_eq] at h
    have hsame : poke n val (pageOffset addr) stored = stored := poke_peek h.1.symm
    refine ⟨?_, fun q _ => rfl, Or.inl ⟨rfl, hsame⟩⟩
    unfold WriteState.bytesOf
    rw [hmem, hsame]

/-- The store, before the masks. -/
theorem storeBytes_eq (hb : s.bytesOf page = some bytes) (hn : pageOffset addr + n ≤ 0x1000) :
    ∃ s₁, storeBytes page n val addr s = some s₁ ∧ s₁.list = s.list ∧
      s₁.bytesOf page = some (poke n val (pageOffset addr) bytes) ∧
      ∀ q, q ≠ page → s₁.mem q = s.mem q := by
  unfold storeBytes
  unfold WriteState.bytesOf at hb
  rw [if_pos hn]
  split at hb
  · cases hb
  next hmem =>
    obtain rfl := Option.some.inj hb
    refine ⟨_, rfl, rfl, ?_, fun q _ => rfl⟩
    unfold WriteState.bytesOf
    dsimp only
    rw [hmem]
  next stored hmem =>
    obtain rfl := Option.some.inj hb
    refine ⟨_, rfl, rfl, ?_, fun q hq => Function.update_of_ne hq ..⟩
    unfold WriteState.bytesOf
    dsimp only
    rw [Function.update_self]

theorem byteOffset_next (hn : pageOffset addr + n ≤ 0x1000) (h : 64 < byteIn addr + n) :
    byteOffset addr + 1 < 64 := by
  rw [pageOffset_eq] at hn
  omega

theorem last_iff : addr &&& PAGE_BYTE_MASK_MASK = PAGE_BYTE_MASK_MASK ↔ byteIn addr = 63 := by
  constructor
  · intro h
    have hnat := congrArg BitVec.toNat h
    exact hnat
  · intro h
    exact BitVec.eq_of_toNat_eq h

theorem rest_iff : addr &&& PAGE_BYTE_MASK_MASK > PAGE_BYTE_MASK_MASK - 3 ↔ 60 < byteIn addr := by
  rw [gt_iff_lt, BitVec.lt_def]
  exact Iff.rfl

theorem stored_of {s₁ : WriteState} {units : BitVec 64} {masks : Fin 64 → BitVec 64}
    {l : EvictState}
    (hbytes : s₁.bytesOf page = some (poke n val (pageOffset addr) bytes))
    (hothers : ∀ q, q ≠ page → s₁.mem q = s.mem q) (hr : Reaches n addr units masks)
    (hm : Marks page units masks s.list l) :
    Stored n val addr page bytes s { s₁ with list := l } :=
  ⟨hbytes, hothers, Or.inr ⟨units, masks, hr, hm⟩⟩

theorem ramb_stored (hb : s.bytesOf page = some bytes)
    (hm : (s.list.pages page).has_byte_mask = true) (val : BitVec 8) :
    ∃ s', mem_write_ramb_page addr val (some page) s = some s' ∧
      Stored 1 val.toNat addr page bytes s s' := by
  by_cases hw : mustWrite page 1 val.toNat addr s = true
  · have hlt : pageOffset addr + 1 ≤ 0x1000 := by
      have h1 := byteOffset_lt addr
      have h2 := byteIn_lt addr
      rw [pageOffset_eq]
      omega
    obtain ⟨s₁, hs, hlist, hbytes, hothers⟩ := storeBytes_eq hb hlt
    have hu := units_marks page (unitMask addr) s.list
    obtain ⟨l, hl, hd⟩ := bytes_marks (byteMask 1 addr) (byteOffset_lt addr) (hu.has hm)
    have hmarks := hu.then_first hd
    refine ⟨_, ?_, stored_of hbytes hothers byte_reaches hmarks⟩
    unfold mem_write_ramb_page
    dsimp only
    rw [if_pos hw, hs]
    simp only [Option.bind_eq_bind, Option.bind_some, hlist, hl]
  · refine ⟨s, ?_, mustWrite_not hb hw⟩
    unfold mem_write_ramb_page
    dsimp only
    rw [if_neg hw]

theorem ramw_stored (hb : s.bytesOf page = some bytes)
    (hm : (s.list.pages page).has_byte_mask = true) (hn : pageOffset addr + 2 ≤ 0x1000)
    (val : BitVec 16) :
    ∃ s', mem_write_ramw_page addr val (some page) s = some s' ∧
      Stored 2 val.toNat addr page bytes s s' := by
  by_cases hw : mustWrite page 2 val.toNat addr s = true
  · obtain ⟨s₁, hs, hlist, hbytes, hothers⟩ := storeBytes_eq hb hn
    have hu := units_marks page (wordUnitMask addr) s.list
    unfold mem_write_ramw_page
    dsimp only
    rw [if_pos hw, hs]
    by_cases hlast : addr &&& PAGE_BYTE_MASK_MASK = PAGE_BYTE_MASK_MASK
    · have h63 := last_iff.mp hlast
      have hnext := byteOffset_next hn (by omega)
      obtain ⟨l₁, hl₁, hd₁⟩ := bytes_marks 1 hnext (hu.has hm)
      have hu₁ := hu.then_first hd₁
      obtain ⟨l₂, hl₂, hd₂⟩ := bytes_marks (byteMask 1 addr) (byteOffset_lt addr) (hu₁.has hm)
      have hmarks := hu₁.then_bytes hd₂
      refine ⟨_, ?_, stored_of hbytes hothers (word_reaches_next h63) hmarks⟩
      simp only [Option.bind_eq_bind, Option.bind_some, hlist, if_pos hlast, hl₁, hl₂]
    · have h63 : ¬byteIn addr = 63 := fun h => hlast (last_iff.mpr h)
      obtain ⟨l, hl, hd⟩ := bytes_marks (byteMask 1 addr ||| byteMask 1 addr <<< 1)
        (byteOffset_lt addr) (hu.has hm)
      have hmarks := hu.then_first hd
      refine ⟨_, ?_, stored_of hbytes hothers (word_reaches h63) hmarks⟩
      simp only [Option.bind_eq_bind, Option.bind_some, hlist, if_neg hlast, hl]
  · refine ⟨s, ?_, mustWrite_not hb hw⟩
    unfold mem_write_ramw_page
    dsimp only
    rw [if_neg hw]

/-- `dirty_mask` and a word of `byte_dirty_mask` together, with one look at the list. -/
theorem both_marks {offset : Nat} (units mask : BitVec 64) (l : EvictState) (ho : offset < 64)
    (hm : (l.pages page).has_byte_mask = true) :
    ∃ l', dirtyBytes page offset mask (dirtyUnits page units l) = some l' ∧
      Marks page units (word offset mask) l
        (addIf (codeInUnits page units l' || codeInBytes page offset mask l') page l') := by
  have hm' : ((dirtyUnits page units l).pages page).has_byte_mask = true := by
    unfold dirtyUnits
    simpa [setMasks] using hm
  have htwice : setMasks page
      (marked 0 (word offset mask) ((dirtyUnits page units l).pages page).toMasks)
      (dirtyUnits page units l) =
        setMasks page (marked units (word offset mask) (l.pages page).toMasks) l := by
    unfold dirtyUnits marked setMasks
    simp
  rw [dirtyBytes_eq mask ho hm', htwice]
  refine ⟨_, rfl, marks_of l _ (fun h => ?_) (fun c h => ?_)⟩
  · unfold codeInUnits
    simpa [setMasks, marked] using Or.inl h
  · have hcode := word_code ho h
    unfold codeInBytes at hcode ⊢
    rw [dif_pos ho] at hcode ⊢
    rw [Bool.or_eq_true]
    refine Or.inr ?_
    simpa [setMasks, marked] using hcode

theorem raml_stored (hb : s.bytesOf page = some bytes)
    (hm : (s.list.pages page).has_byte_mask = true) (hn : pageOffset addr + 4 ≤ 0x1000)
    (val : BitVec 32) :
    ∃ s', mem_write_raml_page addr val (some page) s = some s' ∧
      Stored 4 val.toNat addr page bytes s s' := by
  by_cases hw : mustWrite page 4 val.toNat addr s = true
  · obtain ⟨s₁, hs, hlist, hbytes, hothers⟩ := storeBytes_eq hb hn
    obtain ⟨l₁, hl₁, hu⟩ := both_marks (longUnitMask addr) (byteMask 0xf addr) s.list
      (byteOffset_lt addr) hm
    unfold mem_write_raml_page
    dsimp only
    rw [if_pos hw, hs]
    by_cases hrest : addr &&& PAGE_BYTE_MASK_MASK > PAGE_BYTE_MASK_MASK - 3
    · have h60 := rest_iff.mp hrest
      have hnext := byteOffset_next hn (by omega)
      obtain ⟨l₂, hl₂, hd⟩ := bytes_marks (restMask addr) hnext (hu.has hm)
      have hmarks := hu.then_bytes hd
      refine ⟨_, ?_, stored_of hbytes hothers (long_reaches_next h60) hmarks⟩
      simp only [Option.bind_eq_bind, Option.bind_some, hlist, if_pos hrest, hl₁, hl₂]
    · have h60 : byteIn addr ≤ 60 := by
        have hnot : ¬60 < byteIn addr := fun h => hrest (rest_iff.mpr h)
        omega
      refine ⟨_, ?_, stored_of hbytes hothers (long_reaches h60) hu⟩
      simp only [Option.bind_eq_bind, Option.bind_some, hlist, if_neg hrest, hl₁]
  · refine ⟨s, ?_, mustWrite_not hb hw⟩
    unfold mem_write_raml_page
    dsimp only
    rw [if_neg hw]

end

/-! ## What is tracked -/

/-- No changed byte is missed. Byte `i` of unit `c` is byte `64 * c + i` of the page. -/
structure Tracks (n val : Nat) (addr : BitVec 32) (page : Nat) (bytes : Nat → BitVec 8)
    (s s' : WriteState) : Prop where
  /-- the written bytes are in the page, and the other bytes are as they were -/
  stored : s'.bytesOf page = some (poke n val (pageOffset addr) bytes)
  others : ∀ q, q ≠ page → s'.mem q = s.mem q
  /-- what changed is dirty -/
  dirty : ∀ c i : Fin 64,
    poke n val (pageOffset addr) bytes (64 * c + i) ≠ bytes (64 * c + i) →
      (s'.list.pages page).dirty_mask.getLsbD c = true ∧
      ((s'.list.pages page).byte_dirty_mask c).getLsbD i = true
  /-- what was dirty still is -/
  unit_kept : ∀ q i, (s.list.pages q).dirty_mask.getLsbD i = true →
    (s'.list.pages q).dirty_mask.getLsbD i = true
  byte_kept : ∀ q c i, ((s.list.pages q).byte_dirty_mask c).getLsbD i = true →
    ((s'.list.pages q).byte_dirty_mask c).getLsbD i = true
  /-- with code in a unit or a byte that is dirty now and was not, the page is in the list -/
  unit_listed : ∀ i, (s.list.pages page).dirty_mask.getLsbD i = false →
    (s'.list.pages page).dirty_mask.getLsbD i = true →
    (s.list.pages page).code_present_mask.getLsbD i = true → InList s'.list page
  byte_listed : ∀ c i, ((s.list.pages page).byte_dirty_mask c).getLsbD i = false →
    ((s'.list.pages page).byte_dirty_mask c).getLsbD i = true →
    ((s.list.pages page).byte_code_present_mask c).getLsbD i = true → InList s'.list page
  /-- the list is as it was, or the page was not in it and was added -/
  list : ListKept page s.list s'.list

section

variable {n val page : Nat} {addr : BitVec 32} {bytes : Nat → BitVec 8} {s s' : WriteState}

theorem and_ne_zero {x y : BitVec 64} {i : Nat} (hx : x.getLsbD i = true)
    (hy : y.getLsbD i = true) : x &&& y ≠ 0 := by
  intro h
  have hbit := congrArg (fun z => BitVec.getLsbD z i) h
  simp [hx, hy] at hbit

theorem new_bit {x y : BitVec 64} {i : Nat} (hx : x.getLsbD i = false)
    (h : (x ||| y).getLsbD i = true) : y.getLsbD i = true := by
  rw [BitVec.getLsbD_or, hx, Bool.false_or] at h
  exact h

theorem Stored.tracks (h : Stored n val addr page bytes s s') :
    Tracks n val addr page bytes s s' := by
  obtain ⟨hstored, hothers, ⟨hlist, hsame⟩ | ⟨units, masks, hreach, hmarks⟩⟩ := h
  · refine ⟨hstored, hothers, ?_, ?_, ?_, ?_, ?_, Or.inl ?_⟩
    · intro c i hne
      rw [hsame] at hne
      exact absurd rfl hne
    · intro q i hq
      rwa [hlist]
    · intro q c i hq
      rwa [hlist]
    · intro i hi hi'
      rw [hlist, hi] at hi'
      cases hi'
    · intro c i hi hi'
      rw [hlist, hi] at hi'
      cases hi'
    · rw [hlist]
      exact ⟨fun _ => rfl, fun _ => rfl, rfl, rfl⟩
  · have hdirty : (s'.list.pages page).dirty_mask = (s.list.pages page).dirty_mask ||| units :=
      congrArg Masks.dirty_mask hmarks.masks
    have hbytes : ∀ c, (s'.list.pages page).byte_dirty_mask c =
        (s.list.pages page).byte_dirty_mask c ||| masks c :=
      fun c => congrArg (fun m => Masks.byte_dirty_mask m c) hmarks.masks
    refine ⟨hstored, hothers, ?_, ?_, ?_, ?_, ?_, hmarks.list⟩
    · intro c i hne
      have hin : pageOffset addr ≤ 64 * c.val + i.val ∧
          64 * c.val + i.val < pageOffset addr + n := by
        by_contra hout
        exact hne (poke_outside hout)
      obtain ⟨hu, hb⟩ := hreach c i hin.1 hin.2
      rw [hdirty, hbytes]
      exact ⟨or_bit (Or.inr hu), or_bit (Or.inr hb)⟩
    · intro q i hq
      by_cases hp : q = page
      · subst hp
        rw [hdirty]
        exact or_bit (Or.inl hq)
      · have hm := congrArg Masks.dirty_mask (hmarks.others q hp)
        rwa [hm]
    · intro q c i hq
      by_cases hp : q = page
      · subst hp
        rw [hbytes]
        exact or_bit (Or.inl hq)
      · have hm := congrArg Masks.byte_dirty_mask (hmarks.others q hp)
        rwa [hm]
    · intro i hi hi' hcode
      rw [hdirty] at hi'
      exact hmarks.unit (and_ne_zero hcode (new_bit hi hi'))
    · intro c i hi hi' hcode
      rw [hbytes] at hi'
      exact hmarks.byte c (and_ne_zero hcode (new_bit hi hi'))

end

/-- Every write that stays in a page with memory and byte masks is tracked. -/
theorem no_changed_byte_is_missed (s : WriteState) (page : Nat) (bytes : Nat → BitVec 8)
    (hb : s.bytesOf page = some bytes) (hm : (s.list.pages page).has_byte_mask = true)
    (addr : BitVec 32) :
    (∀ val : BitVec 8, ∃ s', mem_write_ramb_page addr val (some page) s = some s' ∧
      Tracks 1 val.toNat addr page bytes s s') ∧
    (pageOffset addr + 2 ≤ 0x1000 →
      ∀ val : BitVec 16, ∃ s', mem_write_ramw_page addr val (some page) s = some s' ∧
        Tracks 2 val.toNat addr page bytes s s') ∧
    (pageOffset addr + 4 ≤ 0x1000 →
      ∀ val : BitVec 32, ∃ s', mem_write_raml_page addr val (some page) s = some s' ∧
        Tracks 4 val.toNat addr page bytes s s') := by
  refine ⟨fun val => ?_, fun hn val => ?_, fun hn val => ?_⟩
  · obtain ⟨s', hs, hstored⟩ := ramb_stored hb hm val
    exact ⟨s', hs, hstored.tracks⟩
  · obtain ⟨s', hs, hstored⟩ := ramw_stored hb hm hn val
    exact ⟨s', hs, hstored.tracks⟩
  · obtain ⟨s', hs, hstored⟩ := raml_stored hb hm hn val
    exact ⟨s', hs, hstored.tracks⟩

/-- One page of zeroes at page 3, with code in its unit 1. -/
def withCode : WriteState where
  list :=
    { pages := fun _ =>
        { code_present_mask := 2
          dirty_mask := 0
          byte_code_present_mask := fun _ => 0
          byte_dirty_mask := fun _ => 0
          has_byte_mask := true
          evict_prev := none
          evict_next := 0 }
      purgable_page_list_head := 0
      purgeable_page_count := 0 }
  mem _ := .ram fun _ => 0
  page_ff _ := 0xff
  codegen_in_recompile := false

/-- A long over the end of unit 0. -/
theorem a_long_over_two_units :
    ∃ s', mem_write_raml_page 0x303e 0x11223344 (some 3) withCode = some s' ∧
      Tracks 4 0x11223344 0x303e 3 (fun _ => 0) withCode s' :=
  (no_changed_byte_is_missed withCode 3 (fun _ => 0) rfl rfl 0x303e).2.2 (by decide) 0x11223344

end blumach.page_write
