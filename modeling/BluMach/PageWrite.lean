-- The tracked writes to RAM of `mem/mem.c`, as a build with `USE_NEW_DYNAREC` has them. What the
-- guest writes goes into the page and is marked in both of its masks, and where code is marked
-- as well the page goes into the list of pages to purge.
import BluMach.EvictList
import BluMach.LittleEndian

namespace blumach.page_write

open evict_list little_endian

/-! ## The state -/

def PAGE_MASK_SHIFT : Nat := 6

def PAGE_MASK_MASK : BitVec 32 := 63

def PAGE_BYTE_MASK_SHIFT : Nat := 6

def PAGE_BYTE_MASK_OFFSET_MASK : BitVec 32 := 63

def PAGE_BYTE_MASK_MASK : BitVec 32 := 63

/-- What `page->mem` points to. -/
inductive PageMem where
  | null
  | page_ff
  | ram (bytes : Nat → BitVec 8)

/-- The pages with their list, the memory behind each page, and the one substitute page.
Without `USE_DYNAREC` there is no `codegen_in_recompile`, which is as if it were 0. -/
structure WriteState where
  list : EvictState
  mem : Nat → PageMem
  page_ff : Nat → BitVec 8
  codegen_in_recompile : Bool

/-- The bytes that `page->mem` points to, if it points anywhere. -/
def WriteState.bytesOf (s : WriteState) (page : Nat) : Option (Nat → BitVec 8) :=
  match s.mem page with
  | .null => none
  | .page_ff => some s.page_ff
  | .ram bytes => some bytes

def pageOffset (addr : BitVec 32) : Nat := (addr &&& 0xfff).toNat

/-- The first test of each write: `val != page->mem[addr & 0xfff]`, and what comes with it. -/
def mustWrite (page n val : Nat) (addr : BitVec 32) (s : WriteState) : Bool :=
  match s.mem page with
  | .null => true
  | .page_ff => true
  | .ram bytes => val ≠ peek bytes (pageOffset addr) n || s.codegen_in_recompile

/-- `page->mem[addr & 0xfff] = val` for `n` bytes. There is no store through a null pointer, and
one over the end of the page is not followed. -/
def storeBytes (page n val : Nat) (addr : BitVec 32) (s : WriteState) : Option WriteState :=
  if pageOffset addr + n ≤ 0x1000 then
    match s.mem page with
    | .null => none
    | .page_ff => some { s with page_ff := poke n val (pageOffset addr) s.page_ff }
    | .ram bytes =>
      some { s with
        mem := Function.update s.mem page (.ram (poke n val (pageOffset addr) bytes)) }
  else none

/-! ## The masks -/

def unitMask (addr : BitVec 32) : BitVec 64 :=
  1#64 <<< ((addr >>> PAGE_MASK_SHIFT) &&& PAGE_MASK_MASK).toNat

def byteOffset (addr : BitVec 32) : Nat :=
  ((addr >>> PAGE_BYTE_MASK_SHIFT) &&& PAGE_BYTE_MASK_OFFSET_MASK).toNat

def byteMask (bits : BitVec 64) (addr : BitVec 32) : BitVec 64 :=
  bits <<< (addr &&& PAGE_BYTE_MASK_MASK).toNat

/-- `page->dirty_mask |= mask`. -/
def dirtyUnits (page : Nat) (mask : BitVec 64) (l : EvictState) : EvictState :=
  let m := (l.pages page).toMasks
  setMasks page { m with dirty_mask := m.dirty_mask ||| mask } l

/-- `page->byte_dirty_mask[offset] |= mask`, where the page has such a word. -/
def dirtyBytes (page offset : Nat) (mask : BitVec 64) (l : EvictState) : Option EvictState :=
  let m := (l.pages page).toMasks
  if h : offset < 64 ∧ m.has_byte_mask = true then
    let words := m.byte_dirty_mask
    some (setMasks page
      { m with
        byte_dirty_mask := Function.update words ⟨offset, h.1⟩ (words ⟨offset, h.1⟩ ||| mask) }
      l)
  else none

def codeInUnits (page : Nat) (mask : BitVec 64) (l : EvictState) : Bool :=
  (l.pages page).code_present_mask &&& mask != 0

def codeInBytes (page offset : Nat) (mask : BitVec 64) (l : EvictState) : Bool :=
  if h : offset < 64 then (l.pages page).byte_code_present_mask ⟨offset, h⟩ &&& mask != 0 else false

/-- `if (code && !page_in_evict_list(page)) page_add_to_evict_list(page)`. -/
def addIf (code : Bool) (page : Nat) (l : EvictState) : EvictState :=
  if code && !page_in_evict_list (l.pages page) then page_add_to_evict_list page l else l

/-! ## The writes -/

def mem_write_ramb_page (addr : BitVec 32) (val : BitVec 8) (page : Option Nat)
    (s : WriteState) : Option WriteState :=
  match page with
  | none => some s
  | some page =>
    if mustWrite page 1 val.toNat addr s then do
      let mask := unitMask addr
      let byte_offset := byteOffset addr
      let byte_mask := byteMask 1 addr
      let s ← storeBytes page 1 val.toNat addr s
      let l := dirtyUnits page mask s.list
      let l := addIf (codeInUnits page mask l) page l
      let l ← dirtyBytes page byte_offset byte_mask l
      let l := addIf (codeInBytes page byte_offset byte_mask l) page l
      some { s with list := l }
    else some s

/-- The unit mask of a word: the next unit as well at the end of each 16 bytes. -/
def wordUnitMask (addr : BitVec 32) : BitVec 64 :=
  let mask := unitMask addr
  if addr &&& 0xf = 0xf then mask ||| mask <<< 1 else mask

def mem_write_ramw_page (addr : BitVec 32) (val : BitVec 16) (page : Option Nat)
    (s : WriteState) : Option WriteState :=
  match page with
  | none => some s
  | some page =>
    if mustWrite page 2 val.toNat addr s then do
      let mask := wordUnitMask addr
      let byte_offset := byteOffset addr
      let byte_mask := byteMask 1 addr
      let s ← storeBytes page 2 val.toNat addr s
      let l := dirtyUnits page mask s.list
      let l := addIf (codeInUnits page mask l) page l
      if addr &&& PAGE_BYTE_MASK_MASK = PAGE_BYTE_MASK_MASK then
        let l ← dirtyBytes page (byte_offset + 1) 1 l
        let l := addIf (codeInBytes page (byte_offset + 1) 1 l) page l
        let l ← dirtyBytes page byte_offset byte_mask l
        let l := addIf (codeInBytes page byte_offset byte_mask l) page l
        some { s with list := l }
      else
        let byte_mask := byte_mask ||| byte_mask <<< 1
        let l ← dirtyBytes page byte_offset byte_mask l
        let l := addIf (codeInBytes page byte_offset byte_mask l) page l
        some { s with list := l }
    else some s

/-- The unit mask of a long: the next unit as well for the last three places of each 16 bytes. -/
def longUnitMask (addr : BitVec 32) : BitVec 64 :=
  let mask := unitMask addr
  if addr &&& 0xf ≥ 0xd then mask ||| mask <<< 1 else mask

/-- `byte_mask_2`: the bytes of a long that are behind the 64 of its first one. -/
def restMask (addr : BitVec 32) : BitVec 64 := 0xf#64 >>> (4 - (addr &&& 3).toNat)

def mem_write_raml_page (addr : BitVec 32) (val : BitVec 32) (page : Option Nat)
    (s : WriteState) : Option WriteState :=
  match page with
  | none => some s
  | some page =>
    if mustWrite page 4 val.toNat addr s then do
      let mask := longUnitMask addr
      let byte_offset := byteOffset addr
      let byte_mask := byteMask 0xf addr
      let s ← storeBytes page 4 val.toNat addr s
      let l := dirtyUnits page mask s.list
      let l ← dirtyBytes page byte_offset byte_mask l
      let l := addIf (codeInUnits page mask l || codeInBytes page byte_offset byte_mask l) page l
      if addr &&& PAGE_BYTE_MASK_MASK > PAGE_BYTE_MASK_MASK - 3 then
        let byte_mask_2 := restMask addr
        let l ← dirtyBytes page (byte_offset + 1) byte_mask_2 l
        let l := addIf (codeInBytes page (byte_offset + 1) byte_mask_2 l) page l
        some { s with list := l }
      else some { s with list := l }
    else some s

end blumach.page_write
