-- The memory map of `mem/mem.c`. Devices put their mappings in one list, and
-- the tables give, for each page, the mapping that answers. The functions here
-- are those that change the list or the access states, and the recalculation
-- that each of them makes. No mapping ignores base bits.
import BluMach.LastWins
import Mathlib.Data.BitVec
import Mathlib.Data.List.Enum

namespace blumach.mem

/-! ## The data -/

def ACCESS_CPU : BitVec 8 := 1
def ACCESS_BUS : BitVec 8 := 4

def ACCESS_INTERNAL : BitVec 16 := 1
def ACCESS_ROMCS : BitVec 16 := 2
def ACCESS_SMRAM : BitVec 16 := 4
def ACCESS_CACHE : BitVec 16 := 8
def ACCESS_DISABLED : BitVec 16 := 16

def ACCESS_X_DISABLED : BitVec 16 := 16
def ACCESS_X_SMRAM : BitVec 16 := 4
def ACCESS_W_SMRAM : BitVec 16 := 128
def ACCESS_R_SMRAM : BitVec 16 := 4096
def ACCESS_R_DISABLED : BitVec 16 := 16384

def ACCESS_SMRAM_X : BitVec 16 := 1
def ACCESS_SMRAM_W : BitVec 16 := 2
def ACCESS_SMRAM_R : BitVec 16 := 4

def MEM_READ_SMRAM : BitVec 16 := ACCESS_X_SMRAM ||| ACCESS_R_SMRAM
def MEM_READ_SMRAM_EX : BitVec 16 := ACCESS_X_SMRAM
def MEM_EXEC_SMRAM : BitVec 16 := MEM_READ_SMRAM_EX
def MEM_READ_SMRAM_2 : BitVec 16 := ACCESS_R_SMRAM
def MEM_READ_DISABLED : BitVec 16 := ACCESS_X_DISABLED ||| ACCESS_R_DISABLED
def MEM_READ_DISABLED_EX : BitVec 16 := MEM_READ_DISABLED
def MEM_WRITE_SMRAM : BitVec 16 := ACCESS_W_SMRAM
/-- As in `mem.h`, where it is the read mask. -/
def MEM_WRITE_DISABLED_EX : BitVec 16 := MEM_READ_DISABLED

def MEM_MAPPING_EXTERNAL : BitVec 32 := 1
def MEM_MAPPING_INTERNAL : BitVec 32 := 2
def MEM_MAPPING_IS_ROM : BitVec 32 := 8
def MEM_MAPPING_ROMCS : BitVec 32 := 16
def MEM_MAPPING_SMRAM : BitVec 32 := 32
def MEM_MAPPING_CACHE : BitVec 32 := 64

def MEM_GRANULARITY_SIZE : Nat := 4096

/-- A host pointer. `NULL` is `none`. -/
abbrev Ptr := Nat

/-- A range of whole pages below 4 GiB. -/
structure Range where
  base : Nat
  size : Nat
  base_aligned : MEM_GRANULARITY_SIZE ∣ base
  size_aligned : MEM_GRANULARITY_SIZE ∣ size
  below_4g : base + size ≤ 2 ^ 32
deriving DecidableEq

/-- `mem_mapping_t`, without the fields that no function here reads. The links
are the order of the list. -/
structure Mapping extends Range where
  enable : Bool
  read_b : Option Ptr
  read_w : Option Ptr
  read_l : Option Ptr
  write_b : Option Ptr
  write_w : Option Ptr
  write_l : Option Ptr
  exec : Option Ptr
  flags : BitVec 32
deriving DecidableEq

/-- The five tables, by page number. A mapping stands as its place in the
list. -/
structure Tables where
  mem_exec : Nat → Option Ptr
  write_mapping : Nat → Option Nat
  read_mapping : Nat → Option Nat
  write_mapping_bus : Nat → Option Nat
  read_mapping_bus : Nat → Option Nat

structure MemState where
  in_smm : Bool
  /-- From `base_mapping` along `next`. -/
  maps : List Mapping
  /-- The four `vals` of each page. -/
  mem_state : Nat → Nat → BitVec 16
  mem_wp : Nat → BitVec 8
  mem_wp_bus : Nat → BitVec 8
  tables : Tables

/-! ## The recalculation -/

/-- The bit fields `x`, `w` and `r` of a `state_t`. -/
def stateX (v : BitVec 16) : BitVec 16 := v &&& 0x1f
def stateW (v : BitVec 16) : BitVec 16 := (v >>> 5) &&& 0x1f
def stateR (v : BitVec 16) : BitVec 16 := (v >>> 10) &&& 0x1f

def has {w : Nat} (x y : BitVec w) : Bool := x &&& y != 0

def mem_mapping_access_allowed (flags : BitVec 32) (access : BitVec 16) : Bool :=
  if !has access ACCESS_DISABLED then
    if has access ACCESS_CACHE then has flags MEM_MAPPING_CACHE
    else if has access ACCESS_SMRAM then has flags MEM_MAPPING_SMRAM
    else if !has access ACCESS_INTERNAL then
      (if has flags MEM_MAPPING_IS_ROM then
        if has access ACCESS_ROMCS then has flags MEM_MAPPING_ROMCS
        else !has flags MEM_MAPPING_ROMCS
      else true) && !has flags MEM_MAPPING_INTERNAL && !has flags MEM_MAPPING_SMRAM
    else !has flags MEM_MAPPING_EXTERNAL && !has flags MEM_MAPPING_SMRAM
  else if has access ACCESS_CACHE then has flags MEM_MAPPING_CACHE
  else if has access ACCESS_SMRAM then has flags MEM_MAPPING_SMRAM
  else false

/-- The values of `c` in `for (c = start; c < stop; c += MEM_GRANULARITY_SIZE)`. -/
def loopAddrs (start stop : Nat) : List Nat :=
  (List.range ((stop - start + (MEM_GRANULARITY_SIZE - 1)) / MEM_GRANULARITY_SIZE)).map
    fun k => start + k * MEM_GRANULARITY_SIZE

def setAt {β : Type} (f : Nat → β) (p : Nat) (v : β) : Nat → β :=
  fun q => if q = p then v else f q

def clearPage (t : Tables) (c : Nat) : Tables :=
  let p := c / MEM_GRANULARITY_SIZE
  { mem_exec := setAt t.mem_exec p none
    write_mapping := setAt t.write_mapping p none
    read_mapping := setAt t.read_mapping p none
    write_mapping_bus := setAt t.write_mapping_bus p none
    read_mapping_bus := setAt t.read_mapping_bus p none }

/-- `map->write_b || map->write_w || map->write_l`, and the same of the reads. -/
def canWrite (map : Mapping) : Bool :=
  map.write_b.isSome || map.write_w.isSome || map.write_l.isSome

def canRead (map : Mapping) : Bool :=
  map.read_b.isSome || map.read_w.isSome || map.read_l.isSome

/-- The state number `n` of the CPU and of the bus. -/
def cpuState (s : MemState) : Nat := s.in_smm.toNat
def busState (s : MemState) : Nat := s.in_smm.toNat + 2

/-- The body of the inner loop, for mapping number `i`. -/
def mapPage (s : MemState) (i : Nat) (map : Mapping) (t : Tables) (c : Nat) : Tables :=
  let p := c / MEM_GRANULARITY_SIZE
  let n := cpuState s
  let nb := busState s
  { mem_exec :=
      match map.exec with
      | some exec =>
        if mem_mapping_access_allowed map.flags (stateX (s.mem_state p n)) then
          setAt t.mem_exec p (some (exec + (c - map.base)))
        else t.mem_exec
      | none => t.mem_exec
    write_mapping :=
      if s.mem_wp p == 0 && canWrite map &&
          mem_mapping_access_allowed map.flags (stateW (s.mem_state p n)) then
        setAt t.write_mapping p (some i)
      else t.write_mapping
    read_mapping :=
      if canRead map && mem_mapping_access_allowed map.flags (stateR (s.mem_state p n)) then
        setAt t.read_mapping p (some i)
      else t.read_mapping
    write_mapping_bus :=
      if s.mem_wp_bus p == 0 && canWrite map &&
          mem_mapping_access_allowed map.flags (stateW (s.mem_state p nb)) then
        setAt t.write_mapping_bus p (some i)
      else t.write_mapping_bus
    read_mapping_bus :=
      if canRead map && mem_mapping_access_allowed map.flags (stateR (s.mem_state p nb)) then
        setAt t.read_mapping_bus p (some i)
      else t.read_mapping_bus }

/-- `In range?` -/
def inRange (base size : Nat) (map : Mapping) : Bool :=
  map.enable && decide (map.base < base + size) && decide (base < map.base + map.size)

/-- One mapping of the walk. -/
def walkMapping (s : MemState) (base size : Nat) (t : Tables) (mi : Mapping × Nat) : Tables :=
  let map := mi.1
  if inRange base size map then
    let start := if map.base < base then map.base else base
    let stop := if map.base + map.size < base + size then map.base + map.size else base + size
    let start := if start < map.base then map.base else start
    (loopAddrs start stop).foldl (mapPage s mi.2 map) t
  else t

def mem_mapping_recalc (base size : Nat) (s : MemState) : MemState :=
  if size = 0 ∨ s.maps = [] then s
  else
    let cleared := (loopAddrs base (base + size)).foldl clearPage s.tables
    { s with tables := s.maps.zipIdx.foldl (walkMapping s base size) cleared }

/-! ## The operations -/

/-- The new mapping at the end of the list. One of size 0 is not enabled. -/
def appendMapping (r : Range) (read_b read_w read_l write_b write_w write_l exec : Option Ptr)
    (fl : BitVec 32) (s : MemState) : MemState :=
  let map : Mapping :=
    { toRange := r, enable := r.size != 0, read_b, read_w, read_l, write_b, write_w, write_l,
      exec, flags := fl }
  { s with maps := s.maps ++ [map] }

def mem_mapping_add (r : Range) (read_b read_w read_l write_b write_w write_l exec : Option Ptr)
    (fl : BitVec 32) (s : MemState) : MemState :=
  let s := appendMapping r read_b read_w read_l write_b write_w write_l exec fl s
  if r.size ≠ 0 then mem_mapping_recalc r.base r.size s else s

/-- A change of mapping `i`. A pointer to no mapping of the list changes nothing. -/
def modify (i : Nat) (f : Mapping → Mapping) (s : MemState) : MemState :=
  { s with maps := s.maps.modify i f }

/-- `mem_mapping_recalc(map->base, map->size, map->base_ignore)` -/
def recalcOf (i : Nat) (s : MemState) : MemState :=
  match s.maps[i]? with
  | some map => mem_mapping_recalc map.base map.size s
  | none => s

def mem_mapping_set_handler (i : Nat)
    (read_b read_w read_l write_b write_w write_l : Option Ptr) (s : MemState) : MemState :=
  recalcOf i (modify i
    (fun map => { map with read_b, read_w, read_l, write_b, write_w, write_l }) s)

def mem_mapping_set_write_handler (i : Nat) (write_b write_w write_l : Option Ptr)
    (s : MemState) : MemState :=
  recalcOf i (modify i (fun map => { map with write_b, write_w, write_l }) s)

def mem_mapping_set_exec (i : Nat) (exec : Option Ptr) (s : MemState) : MemState :=
  recalcOf i (modify i (fun map => { map with exec }) s)

def mem_mapping_disable (i : Nat) (s : MemState) : MemState :=
  recalcOf i (modify i (fun map => { map with enable := false }) s)

def mem_mapping_enable (i : Nat) (s : MemState) : MemState :=
  recalcOf i (modify i (fun map => { map with enable := true }) s)

def mem_mapping_set_addr (i : Nat) (r : Range) (s : MemState) : MemState :=
  let s := recalcOf i (modify i (fun map => { map with enable := false }) s)
  recalcOf i (modify i (fun map => { map with enable := true, toRange := r }) s)

/-- The `smstate` of `mem_set_access`, and the mask of the bits that stay. The
table has four entries, and callers pass no access past them. -/
def smstateOf (mode : Nat) (access : BitVec 16) : BitVec 16 × BitVec 16 :=
  if mode ≠ 0 then
    let access := if mode = 1 then (if access ≠ 0 then 1 else 0) else access
    if mode = 3 then
      ((if has access ACCESS_SMRAM_X then MEM_EXEC_SMRAM else 0) |||
        (if has access ACCESS_SMRAM_R then MEM_READ_SMRAM_2 else 0) |||
        (if has access ACCESS_SMRAM_W then MEM_WRITE_SMRAM else 0), 0x2d6b)
    else
      ([0x0000, MEM_READ_SMRAM ||| MEM_WRITE_SMRAM, MEM_READ_SMRAM_EX,
        MEM_READ_DISABLED_EX ||| MEM_WRITE_DISABLED_EX].getD (access &&& 0x07).toNat 0, 0x2d6b)
  else (access &&& 0x6f7b, 0x1084)

/-- The body of the loop over the pages, for the four states of a page. -/
def setVals (bitmap : BitVec 8) (mask smstate : BitVec 16) (v : Nat → BitVec 16) :
    Nat → BitVec 16 :=
  fun i => if i < 4 && bitmap.getLsbD i then (v i &&& mask) ||| smstate else v i

/-- The loop of `mem_set_access`. -/
def withAccess (bitmap : BitVec 8) (mode : Nat) (r : Range) (access : BitVec 16)
    (s : MemState) : MemState :=
  let (smstate, mask) := smstateOf mode access
  let setPage := fun ms c =>
    let p := (c + r.base) / MEM_GRANULARITY_SIZE
    setAt ms p (setVals bitmap mask smstate (ms p))
  { s with mem_state := (loopAddrs 0 r.size).foldl setPage s.mem_state }

def mem_set_access (bitmap : BitVec 8) (mode : Nat) (r : Range) (access : BitVec 16)
    (s : MemState) : MemState :=
  mem_mapping_recalc r.base r.size (withAccess bitmap mode r access s)

/-- The body of the loop of `mem_set_wp`. -/
def setWpPage (flags wp : BitVec 8) (s : MemState) (c : Nat) : MemState :=
  let p := c / MEM_GRANULARITY_SIZE
  let s := if has flags ACCESS_BUS then { s with mem_wp_bus := setAt s.mem_wp_bus p wp } else s
  if has flags ACCESS_CPU then { s with mem_wp := setAt s.mem_wp p wp } else s

def withWp (r : Range) (flags wp : BitVec 8) (s : MemState) : MemState :=
  (loopAddrs r.base (r.base + r.size)).foldl (setWpPage flags wp) s

def mem_set_wp (r : Range) (flags wp : BitVec 8) (s : MemState) : MemState :=
  mem_mapping_recalc r.base r.size (withWp r flags wp s)

/-! ## Runs -/

inductive MapOp where
  | add (r : Range) (read_b read_w read_l write_b write_w write_l exec : Option Ptr)
      (fl : BitVec 32)
  | set_handler (i : Nat) (read_b read_w read_l write_b write_w write_l : Option Ptr)
  | set_write_handler (i : Nat) (write_b write_w write_l : Option Ptr)
  | set_exec (i : Nat) (exec : Option Ptr)
  | disable (i : Nat)
  | enable (i : Nat)
  | set_addr (i : Nat) (r : Range)
  | set_access (bitmap : BitVec 8) (mode : Nat) (r : Range) (access : BitVec 16)
  | set_wp (r : Range) (flags wp : BitVec 8)

def step : MapOp → MemState → MemState
  | .add r rb rw rl wb ww wl exec fl => mem_mapping_add r rb rw rl wb ww wl exec fl
  | .set_handler i rb rw rl wb ww wl => mem_mapping_set_handler i rb rw rl wb ww wl
  | .set_write_handler i wb ww wl => mem_mapping_set_write_handler i wb ww wl
  | .set_exec i exec => mem_mapping_set_exec i exec
  | .disable i => mem_mapping_disable i
  | .enable i => mem_mapping_enable i
  | .set_addr i r => mem_mapping_set_addr i r
  | .set_access bitmap mode r access => mem_set_access bitmap mode r access
  | .set_wp r flags wp => mem_set_wp r flags wp

def noTables : Tables := ⟨fun _ => none, fun _ => none, fun _ => none, fun _ => none, fun _ => none⟩

/-- Before any mapping is added. The access states and the write protection are
those of any machine. -/
def initial (in_smm : Bool) (mem_state : Nat → Nat → BitVec 16) (mem_wp mem_wp_bus : Nat →
    BitVec 8) : MemState :=
  { in_smm, maps := [], mem_state, mem_wp, mem_wp_bus, tables := noTables }

end blumach.mem
