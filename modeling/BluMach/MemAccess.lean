-- The reads and the writes of two, four and eight bytes of `mem/mem.c`, with the lookups, the
-- translations and the mappings that they go through. One that lies in two pages is split: the
-- pages are translated first, and the parts are read or written after that. The cycles and the
-- debug registers are left out.
import BluMach.MemLookup
import BluMach.Mmu

namespace blumach.mem_access

open mem_lookup mmu

/-! ## State -/

/-- Where a byte is: in the memory of the host, or behind a mapping that is not of RAM, at its
physical address. -/
inductive Place where
  | host (place : BitVec 64)
  | bus (addr : BitVec 32)
deriving DecidableEq, Repr

/-- What the accesses use. The memory of a page of `pages` is the page of `ram` of its number. A
mapping without a handler for the size of an access gets its bytes one after another, and what
comes out of a mapping that is not of RAM is not looked at. -/
structure Machine where
  mmu : MmuState
  lookups : Lookups
  rammask : BitVec 32
  high_page : Bool
  mem_logical_addr : BitVec 32
  is_compare : Bool
  cpu_use_exec : Bool
  ram : BitVec 64
  /-- the page of `pages` has its `write_b`, `write_w` and `write_l` -/
  hasWrite : Page → Bool
  /-- the mapping that reads the physical page is of RAM -/
  ramReads : Page → Bool
  ramWrites : Page → Bool
  /-- the bytes that were stored, in their order -/
  stored : List (Place × BitVec 8)
  /-- `mem_a20_recalc` clears no bit below bit 20 -/
  offset_kept : rammask &&& 0xfff = 0xfff

/-- `cr0 >> 31` -/
def paging (s : Machine) : Prop := s.mmu.cr0 >>> 31 ≠ 0

instance (s : Machine) : Decidable (paging s) := inferInstanceAs (Decidable (_ ≠ _))

/-- `page_lookup[addr >> 12]`, if that page has its `write_b`. -/
def tracked (s : Machine) (addr : BitVec 32) : Option Page :=
  (s.lookups.page_lookup (pageOf addr)).filter s.hasWrite

/-- `&page->mem[addr & 0xfff]` -/
def pageCell (s : Machine) (page : Page) (addr : BitVec 32) : BitVec 64 :=
  s.ram + (page.setWidth 64 <<< 12) + (addr &&& 0xfff).setWidth 64

/-- The places of an access that starts at one. -/
def hostPlaces (place : BitVec 64) (n : Nat) : List Place :=
  (List.range n).map fun j => .host (place + BitVec.ofNat 64 j)

/-- The places of an access through the mapping of its first byte. -/
def busPlaces (ram : BitVec 64) (isRam : Page → Bool) (addr : BitVec 32) (n : Nat) : List Place :=
  if isRam (pageOf addr) then hostPlaces (ram + addr.setWidth 64) n
  else (List.range n).map fun j => .bus (addr + BitVec.ofNat 32 j)

def Machine.store (places : List Place) (bytes : List (BitVec 8)) (s : Machine) : Machine :=
  { s with stored := s.stored ++ places.zip bytes }

/-- The `n` low bytes of a value. -/
def bytes {w : Nat} (n : Nat) (val : BitVec w) : List (BitVec 8) :=
  (List.range n).map fun j => val.extractLsb' (8 * j) 8

/-- An earlier translation did not give an address of 32 bits. -/
def Stopped (s : Machine) : Prop := paging s ∧ (s.mmu.abrt ≠ 0 ∨ s.high_page = true)

instance (s : Machine) : Decidable (Stopped s) := inferInstanceAs (Decidable (_ ∧ _))

/-! ## Translations -/

def mmutranslate (rw : Bool) (addr : BitVec 32) (s : Machine) : Machine × BitVec 64 :=
  let (mmu, a) := mmutranslatereal addr rw s.mmu
  ({ s with mmu := mmu }, a)

/-- A write does not translate a page that has a lookup of its own. -/
def Skips (rw : Bool) (s : Machine) (addr : BitVec 32) : Prop :=
  rw = true ∧ (tracked s addr).isSome = true

instance (rw : Bool) (s : Machine) (addr : BitVec 32) : Decidable (Skips rw s addr) :=
  inferInstanceAs (Decidable (_ ∧ _))

/-- `(a & ~0xfffLL) | ((addr + i) & 0xfff)` -/
def withOffset (a : BitVec 64) (addr : BitVec 32) : BitVec 64 :=
  (a &&& ~~~0xfff#64) ||| (addr &&& 0xfff).setWidth 64

/-- The loop of the words, with `m` bytes to go: each byte is translated. None if the function
returns from it. -/
def translateEach (rw : Bool) (addr : BitVec 32) :
    Nat → Nat → (Nat → BitVec 32) → Machine → Machine × Option (Nat → BitVec 32)
  | 0, _, a64, s => (s, some a64)
  | m + 1, i, a64, s =>
    let here := addr + BitVec.ofNat 32 i
    if Skips rw s here then translateEach rw addr m (i + 1) a64 s
    else
      let (s, a) := mmutranslate rw here s
      if a > 0xffffffff then (s, none)
      else translateEach rw addr m (i + 1) (Function.update a64 i (a.setWidth 32)) s

/-- The value of `a` for byte `i` of the `n`: a page is translated at its first byte in the
access, the second one for the address of the last byte. -/
def translateByte (rw : Bool) (addr : BitVec 32) (n i : Nat) (a : BitVec 64) (s : Machine) :
    Machine × BitVec 64 :=
  let here := addr + BitVec.ofNat 32 i
  if i = 0 then mmutranslate rw here s
  else if here &&& 0xfff = 0 then
    let (s, a) := mmutranslate rw (addr + BitVec.ofNat 32 (n - 1)) s
    (s, if s.mmu.abrt = 0 then withOffset a here else a)
  else (s, withOffset a here)

/-- The loop of the longs and of the quads. Only `addr64a[i]`, which has 32 bits, is compared in a
write of a quad, so that it goes on. -/
def translateBytes (rw checked : Bool) (addr : BitVec 32) (n : Nat) :
    Nat → Nat → BitVec 64 → (Nat → BitVec 32) → Machine → Machine × Option (Nat → BitVec 32)
  | 0, _, _, a64, s => (s, some a64)
  | m + 1, i, a, a64, s =>
    if Skips rw s (addr + BitVec.ofNat 32 i) then
      translateBytes rw checked addr n m (i + 1) a a64 s
    else
      let (s, a) := translateByte rw addr n i a s
      if checked = true ∧ a > 0xffffffff then (s, none)
      else translateBytes rw checked addr n m (i + 1) a (Function.update a64 i (a.setWidth 32)) s

/-- `addr64a` before the translations. -/
def linear (addr : BitVec 32) (i : Nat) : BitVec 32 := addr + BitVec.ofNat 32 i

/-! ## Writes without translation -/

/-- Through a mapping; that of RAM makes a lookup. -/
def writeMapped (addr : BitVec 32) (data : List (BitVec 8)) (s : Machine) : Machine :=
  let s :=
    if s.ramWrites (pageOf addr) = true ∧ s.cpu_use_exec = true then
      { s with lookups := addwritelookup s.ram s.mem_logical_addr addr s.lookups }
    else s
  s.store (busPlaces s.ram s.ramWrites addr data.length) data

/-- What all sizes have behind their splits: the page of the lookup, or the mapping of the
translated address. -/
def writeWhole (addr a64 : BitVec 32) (data : List (BitVec 8)) (s : Machine) : Machine :=
  match tracked s addr with
  | some page => s.store (hostPlaces (pageCell s page addr) data.length) data
  | none =>
    if Stopped s then s
    else writeMapped ((if paging s then a64 else addr) &&& s.rammask) data s

/-- `*(writelookup2[addr >> 12] + addr) = val` -/
def writeWindow (addr : BitVec 32) (data : List (BitVec 8)) (s : Machine) : Machine :=
  s.store (hostPlaces (s.lookups.writelookup2 (pageOf addr) + addr.setWidth 64) data.length) data

def writemembl_no_mmut (addr a64 : BitVec 32) (val : BitVec 8) (s : Machine) : Machine :=
  writeWhole addr a64 [val] { s with mem_logical_addr := addr }

def writememwl_no_mmut (addr : BitVec 32) (a64 : Nat → BitVec 32) (val : BitVec 16)
    (s : Machine) : Machine :=
  let s := { s with mem_logical_addr := addr }
  if addr &&& 1 ≠ 0 ∧ addr &&& 0xfff > 0xffe then
    if Stopped s then s
    else
      let s := writemembl_no_mmut addr (a64 0) (val.setWidth 8) s
      writemembl_no_mmut (addr + 1) (a64 1) ((val >>> 8).setWidth 8) s
  else if addr &&& 1 ≠ 0 ∧ s.lookups.writelookup2 (pageOf addr) ≠ LOOKUP_INV then
    writeWindow addr (bytes 2 val) s
  else writeWhole addr (a64 0) (bytes 2 val) s

/-- `&(a64[k])` -/
def behind (a64 : Nat → BitVec 32) (k : Nat) : Nat → BitVec 32 := fun i => a64 (k + i)

def writememll_no_mmut (addr : BitVec 32) (a64 : Nat → BitVec 32) (val : BitVec 32)
    (s : Machine) : Machine :=
  let s := { s with mem_logical_addr := addr }
  if addr &&& 3 ≠ 0 ∧ addr &&& 0xfff > 0xffc then
    if Stopped s then s
    else
      let s := writememwl_no_mmut addr a64 (val.setWidth 16) s
      writememwl_no_mmut (addr + 2) (behind a64 2) ((val >>> 16).setWidth 16) s
  else if addr &&& 3 ≠ 0 ∧ s.lookups.writelookup2 (pageOf addr) ≠ LOOKUP_INV then
    writeWindow addr (bytes 4 val) s
  else writeWhole addr (a64 0) (bytes 4 val) s

/-! ## Writes -/

def begin (addr : BitVec 32) (s : Machine) : Machine :=
  { s with mem_logical_addr := addr, high_page := false }

/-- An access in one page that no lookup takes: `write` gets the physical address. -/
def writeTranslated (checked : Bool) (addr : BitVec 32) (write : BitVec 32 → Machine → Machine)
    (s : Machine) : Machine :=
  if paging s then
    let (s, a) := mmutranslate true addr s
    if checked = true ∧ a > 0xffffffff then s else write (a.setWidth 32 &&& s.rammask) s
  else write (addr &&& s.rammask) s

def writememwl (addr : BitVec 32) (val : BitVec 16) (s : Machine) : Machine :=
  let s := begin addr s
  if addr &&& 1 ≠ 0 ∧ addr &&& 0xfff > 0xffe then
    let (s, a64) :=
      if paging s then translateEach true addr 2 0 (linear addr) s else (s, some (linear addr))
    match a64 with
    | none => s
    | some a64 =>
      let s := writemembl_no_mmut addr (a64 0) (val.setWidth 8) s
      writemembl_no_mmut (addr + 1) (a64 1) ((val >>> 8).setWidth 8) s
  else if addr &&& 1 ≠ 0 ∧ s.lookups.writelookup2 (pageOf addr) ≠ LOOKUP_INV then
    writeWindow addr (bytes 2 val) s
  else
    match tracked s addr with
    | some page => s.store (hostPlaces (pageCell s page addr) 2) (bytes 2 val)
    | none => writeTranslated true addr (fun addr => writeMapped addr (bytes 2 val)) s

def writememll (addr : BitVec 32) (val : BitVec 32) (s : Machine) : Machine :=
  let s := begin addr s
  if addr &&& 3 ≠ 0 ∧ addr &&& 0xfff > 0xffc then
    let (s, a64) :=
      if paging s then translateBytes true true addr 4 4 0 0 (linear addr) s
      else (s, some (linear addr))
    match a64 with
    | none => s
    | some a64 =>
      let s := writememwl_no_mmut addr a64 (val.setWidth 16) s
      writememwl_no_mmut (addr + 2) (behind a64 2) ((val >>> 16).setWidth 16) s
  else if addr &&& 3 ≠ 0 ∧ s.lookups.writelookup2 (pageOf addr) ≠ LOOKUP_INV then
    writeWindow addr (bytes 4 val) s
  else
    match tracked s addr with
    | some page => s.store (hostPlaces (pageCell s page addr) 4) (bytes 4 val)
    | none => writeTranslated true addr (fun addr => writeMapped addr (bytes 4 val)) s

def writememql (addr : BitVec 32) (val : BitVec 64) (s : Machine) : Machine :=
  let s := begin addr s
  if addr &&& 7 ≠ 0 ∧ addr &&& 0xfff > 0xff8 then
    let (s, a64) :=
      if paging s then translateBytes true false addr 8 8 0 0 (linear addr) s
      else (s, some (linear addr))
    match a64 with
    | none => s
    | some a64 =>
      let s := writememll_no_mmut addr a64 (val.setWidth 32) s
      writememll_no_mmut (addr + 4) (behind a64 4) ((val >>> 32).setWidth 32) s
  else if addr &&& 7 ≠ 0 ∧ s.lookups.writelookup2 (pageOf addr) ≠ LOOKUP_INV then
    writeWindow addr (bytes 8 val) s
  else
    match tracked s addr with
    | some page => s.store (hostPlaces (pageCell s page addr) 8) (bytes 8 val)
    | none =>
      writeTranslated false addr (fun addr s =>
        writeMapped (addr + 4) (bytes 4 (val >>> 32)) (writeMapped addr (bytes 4 val) s)) s

/-! ## Reads -/

/-- A byte of the value that is read: the one of a place, or one that stands for none. -/
inductive Source where
  | place (place : Place)
  | none (byte : BitVec 8)
deriving DecidableEq, Repr

/-- A value that stands for none. -/
def nothing (n : Nat) {w : Nat} (val : BitVec w) : List Source := (bytes n val).map .none

/-- Through a mapping; that of RAM makes a lookup. -/
def readMapped (addr : BitVec 32) (n : Nat) (s : Machine) : Machine × List Source :=
  let places := (busPlaces s.ram s.ramReads addr n).map .place
  if s.ramReads (pageOf addr) = true ∧ s.cpu_use_exec = true then
    ({ s with lookups := addreadlookup s.ram s.is_compare s.mem_logical_addr addr s.lookups },
      places)
  else (s, places)

/-- What all sizes have behind their splits. -/
def readWhole (addr a64 : BitVec 32) (n : Nat) (s : Machine) : Machine × List Source :=
  if Stopped s then (s, nothing n (-1 : BitVec 64))
  else readMapped ((if paging s then a64 else addr) &&& s.rammask) n s

/-- `readlookup2[large_offset | (addr >> 12)]` -/
def readlookup2 (s : Machine) (addr : BitVec 32) : BitVec 64 :=
  s.lookups.readlookup2 s.is_compare (pageOf addr)

/-- `*(*rl2 + addr)` -/
def readWindow (addr : BitVec 32) (n : Nat) (s : Machine) : List Source :=
  (hostPlaces (readlookup2 s addr + addr.setWidth 64) n).map .place

def readmembl_no_mmut (addr a64 : BitVec 32) (s : Machine) : Machine × List Source :=
  readWhole addr a64 1 { s with mem_logical_addr := addr }

/-- The low half and the high half, one after the other. -/
def readHalves (low high : Machine → Machine × List Source) (s : Machine) :
    Machine × List Source :=
  let (s, l) := low s
  let (s, h) := high s
  (s, l ++ h)

def readmemwl_no_mmut (addr : BitVec 32) (a64 : Nat → BitVec 32) (s : Machine) :
    Machine × List Source :=
  let s := { s with mem_logical_addr := addr }
  if addr &&& 1 ≠ 0 ∧ addr &&& 0xfff > 0xffe then
    if Stopped s then (s, nothing 2 (0xffff : BitVec 16))
    else readHalves (readmembl_no_mmut addr (a64 0)) (readmembl_no_mmut (addr + 1) (a64 1)) s
  else if addr &&& 1 ≠ 0 ∧ readlookup2 s addr ≠ LOOKUP_INV then (s, readWindow addr 2 s)
  else readWhole addr (a64 0) 2 s

def readmemll_no_mmut (addr : BitVec 32) (a64 : Nat → BitVec 32) (s : Machine) :
    Machine × List Source :=
  let s := { s with mem_logical_addr := addr }
  if addr &&& 3 ≠ 0 ∧ addr &&& 0xfff > 0xffc then
    if Stopped s then (s, nothing 4 (0xffffffff : BitVec 32))
    else readHalves (readmemwl_no_mmut addr a64) (readmemwl_no_mmut (addr + 2) (behind a64 2)) s
  else if addr &&& 3 ≠ 0 ∧ readlookup2 s addr ≠ LOOKUP_INV then (s, readWindow addr 4 s)
  else readWhole addr (a64 0) 4 s

/-- An access in one page that no lookup takes. -/
def readTranslated (addr : BitVec 32) (n : Nat) (read : BitVec 32 → Machine → Machine × List Source)
    (s : Machine) : Machine × List Source :=
  if paging s then
    let (s, a) := mmutranslate false addr s
    if a > 0xffffffff then (s, nothing n (-1 : BitVec 64))
    else read (a.setWidth 32 &&& s.rammask) s
  else read (addr &&& s.rammask) s

def readmemwl (addr : BitVec 32) (s : Machine) : Machine × List Source :=
  let s := begin addr s
  if addr &&& 1 ≠ 0 ∧ addr &&& 0xfff > 0xffe then
    let (s, a64) :=
      if paging s then translateEach false addr 2 0 (linear addr) s else (s, some (linear addr))
    match a64 with
    | none => (s, nothing 2 (0xffff : BitVec 16))
    | some a64 =>
      readHalves (readmembl_no_mmut addr (a64 0)) (readmembl_no_mmut (addr + 1) (a64 1)) s
  else if addr &&& 1 ≠ 0 ∧ readlookup2 s addr ≠ LOOKUP_INV then (s, readWindow addr 2 s)
  else readTranslated addr 2 (fun addr => readMapped addr 2) s

def readmemll (addr : BitVec 32) (s : Machine) : Machine × List Source :=
  let s := begin addr s
  if addr &&& 3 ≠ 0 ∧ addr &&& 0xfff > 0xffc then
    let (s, a64) :=
      if paging s then translateBytes false true addr 4 4 0 0 (linear addr) s
      else (s, some (linear addr))
    match a64 with
    | none => (s, nothing 4 (0xffff : BitVec 32))
    | some a64 =>
      readHalves (readmemwl_no_mmut addr a64) (readmemwl_no_mmut (addr + 2) (behind a64 2)) s
  else if addr &&& 3 ≠ 0 ∧ readlookup2 s addr ≠ LOOKUP_INV then (s, readWindow addr 4 s)
  else readTranslated addr 4 (fun addr => readMapped addr 4) s

def readmemql (addr : BitVec 32) (s : Machine) : Machine × List Source :=
  let s := begin addr s
  if addr &&& 7 ≠ 0 ∧ addr &&& 0xfff > 0xff8 then
    let (s, a64) :=
      if paging s then translateBytes false true addr 8 8 0 0 (linear addr) s
      else (s, some (linear addr))
    match a64 with
    | none => (s, nothing 8 (0xffff : BitVec 64))
    | some a64 =>
      readHalves (readmemll_no_mmut addr a64) (readmemll_no_mmut (addr + 4) (behind a64 4)) s
  else if addr &&& 7 ≠ 0 ∧ readlookup2 s addr ≠ LOOKUP_INV then (s, readWindow addr 8 s)
  else
    readTranslated addr 8
      (fun addr => readHalves (readMapped addr 4) (readMapped (addr + 4) 4)) s

end blumach.mem_access
