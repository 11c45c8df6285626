-- The lookup tables of `mem/mem.c`, which take an access past the paging unit. An entry of a
-- virtual page is what has to be added to an address in it to get the place in the memory of the
-- host. The entries are not looked for one by one: two small rings name those that are in use.
-- The counts of cycles and of flushes, and the cache of the fetches, are left out.
import Mathlib.Data.BitVec
import Mathlib.Data.List.FinRange
import Mathlib.Logic.Function.Basic

namespace blumach.mem_lookup

/-- For the literals of `Fin 256`. -/
scoped instance neZero_256 : @NeZero Nat Zero.ofOfNat0 256 := ⟨by decide⟩

/-! ## The tables -/

/-- The number of a page of 4096 bytes, as in `virt >> 12`. -/
abbrev Page := BitVec 20

def LOOKUP_INV : BitVec 64 := -1

/-- What `addwritelookup` reads of a page: the code blocks that start and that end in it. -/
structure CodePage where
  block : BitVec 16
  block_2 : BitVec 16

/-- The tables of reads have an upper half for compares, where `large_offset` and `small_offset`
are added. A slot of 0xffffffff is `none`, and a pointer into `pages` is the number of the page. -/
structure Lookups where
  readlookup2 : Bool → Page → BitVec 64
  writelookup2 : Page → BitVec 64
  page_lookup : Page → Option Page
  readlookup : Bool → Fin 256 → Option Page
  readlnext : Bool → Fin 256
  writelookup : Fin 256 → Option Page
  writelnext : Fin 256
  pages : Page → CodePage
  recomp_page : BitVec 32

def pageOf (addr : BitVec 32) : Page := addr.extractLsb' 12 20

/-- `(uintptr_t) (addr & ~0xfff)` -/
def frame (addr : BitVec 32) : BitVec 64 := (addr &&& ~~~0xfff#32).setWidth 64

namespace Lookups

variable (s : Lookups)

def setRead (is_compare : Bool) (page : Page) (value : BitVec 64) : Lookups :=
  let half := Function.update (s.readlookup2 is_compare) page value
  { s with readlookup2 := Function.update s.readlookup2 is_compare half }

def setReadSlot (is_compare : Bool) (c : Fin 256) (page : Option Page) : Lookups :=
  let half := Function.update (s.readlookup is_compare) c page
  { s with readlookup := Function.update s.readlookup is_compare half }

/-- Both entries of a page that is written to. -/
def dropWrite (page : Page) : Lookups :=
  { s with
    page_lookup := Function.update s.page_lookup page none
    writelookup2 := Function.update s.writelookup2 page LOOKUP_INV }

def setWriteSlot (c : Fin 256) (page : Option Page) : Lookups :=
  { s with writelookup := Function.update s.writelookup c page }

end Lookups

/-- The pages and the code blocks are as they are. -/
def resetreadlookup (s : Lookups) : Lookups :=
  { s with
    readlookup2 := fun _ _ => LOOKUP_INV
    writelookup2 := fun _ => LOOKUP_INV
    page_lookup := fun _ => none
    readlookup := fun _ _ => none
    readlnext := fun _ => 0
    writelookup := fun _ => none
    writelnext := 0 }

/-! ## New entries -/

/-- `&ram[(uintptr_t) (phys & ~0xFFF) - (uintptr_t) (virt & ~0xfff)]` -/
def window (ram : BitVec 64) (phys virt : BitVec 32) : BitVec 64 := ram + (frame phys - frame virt)

def addreadlookup (ram : BitVec 64) (is_compare : Bool) (virt phys : BitVec 32) (s : Lookups) :
    Lookups :=
  if virt = 0xffffffff then s
  else if s.readlookup2 is_compare (pageOf virt) ≠ LOOKUP_INV then s
  else
    let cur_rln := s.readlnext is_compare
    let s :=
      match s.readlookup is_compare cur_rln with
      | some old => s.setRead is_compare old LOOKUP_INV
      | none => s
    let s := s.setRead is_compare (pageOf virt) (window ram phys virt)
    let s := s.setReadSlot is_compare cur_rln (some (pageOf virt))
    { s with readlnext := Function.update s.readlnext is_compare (cur_rln + 1) }

/-- A page with code, or that code is made for, has its writes tracked. -/
def tracked (phys : BitVec 32) (s : Lookups) : Bool :=
  (s.pages (pageOf phys)).block != 0 || (s.pages (pageOf phys)).block_2 != 0 ||
    (phys &&& ~~~0xfff#32) == s.recomp_page

def addwritelookup (ram : BitVec 64) (virt phys : BitVec 32) (s : Lookups) : Lookups :=
  if virt = 0xffffffff then s
  else if (s.page_lookup (pageOf virt)).isSome then s
  else
    let cur := s.writelnext
    let s :=
      match s.writelookup cur with
      | some old => s.dropWrite old
      | none => s
    let s :=
      if tracked phys s then
        { s with page_lookup := Function.update s.page_lookup (pageOf virt) (some (pageOf phys)) }
      else
        { s with writelookup2 :=
            Function.update s.writelookup2 (pageOf virt) (window ram phys virt) }
    { s.setWriteSlot cur (some (pageOf virt)) with writelnext := cur + 1 }

/-! ## Flushes -/

def flushReadSlot (is_compare : Bool) (s : Lookups) (c : Fin 256) : Lookups :=
  match s.readlookup is_compare c with
  | some page =>
    ((s.setRead false page LOOKUP_INV).setRead true page LOOKUP_INV).setReadSlot is_compare c none
  | none => s

def flushWriteSlot (s : Lookups) (c : Fin 256) : Lookups :=
  match s.writelookup c with
  | some page => (s.dropWrite page).setWriteSlot c none
  | none => s

/-- The numbers of the slots of a ring. -/
@[irreducible]
def slots : List (Fin 256) := List.finRange 256

/-- The loop goes over the 512 slots of the reads, and over those of the writes on the way. -/
def flushmmucache_nopc (s : Lookups) : Lookups :=
  let s := slots.foldl (fun s c => flushWriteSlot (flushReadSlot false s c) c) s
  slots.foldl (flushReadSlot true) s

/-- Besides, it forgets where the code was fetched from. -/
def flushmmucache (s : Lookups) : Lookups := flushmmucache_nopc s

def flushmmucache_write (s : Lookups) : Lookups := slots.foldl flushWriteSlot s

/-- The entries that `mem_flush_write_page` looks for. -/
def Matches (ram : BitVec 64) (addr virt : BitVec 32) (s : Lookups) (page : Page) : Prop :=
  s.writelookup2 page = window ram addr virt ∨ s.page_lookup page = some (pageOf addr)

instance (ram : BitVec 64) (addr virt : BitVec 32) (s : Lookups) (page : Page) :
    Decidable (Matches ram addr virt s page) :=
  inferInstanceAs (Decidable (_ ∨ _))

def flushPageSlot (ram : BitVec 64) (addr virt : BitVec 32) (s : Lookups) (c : Fin 256) : Lookups :=
  match s.writelookup c with
  | some page =>
    if Matches ram addr virt s page then (s.dropWrite page).setWriteSlot c none else s
  | none => s

def mem_flush_write_page (ram : BitVec 64) (addr virt : BitVec 32) (s : Lookups) : Lookups :=
  slots.foldl (flushPageSlot ram addr virt) s

/-! ## Runs -/

inductive Op where
  | addreadlookup (is_compare : Bool) (virt phys : BitVec 32)
  | addwritelookup (virt phys : BitVec 32)
  | mem_flush_write_page (addr virt : BitVec 32)
  | flushmmucache
  | flushmmucache_write
  | flushmmucache_nopc
  /-- Code blocks come and go. -/
  | code (pages : Page → CodePage) (recomp_page : BitVec 32)

def step (ram : BitVec 64) (s : Lookups) : Op → Lookups
  | .addreadlookup is_compare virt phys => addreadlookup ram is_compare virt phys s
  | .addwritelookup virt phys => addwritelookup ram virt phys s
  | .mem_flush_write_page addr virt => mem_flush_write_page ram addr virt s
  | .flushmmucache => flushmmucache s
  | .flushmmucache_write => flushmmucache_write s
  | .flushmmucache_nopc => flushmmucache_nopc s
  | .code pages recomp_page => { s with pages := pages, recomp_page := recomp_page }

end blumach.mem_lookup
