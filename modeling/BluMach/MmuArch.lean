-- Paging as the architecture defines it, over the tables that a state has in its memory: where
-- each entry is, when an access is allowed, and what a walk leaves in the entries. The walk of
-- `mem/mem.c` is this one.
import BluMach.BitFields
import BluMach.Mmu

namespace blumach.mmu

open bit_fields

/-! ## Entries -/

/-- The dword of the host that is behind a physical address. -/
def cell (s : MmuState) (x : Nat) : Nat :=
  (s._mem_exec (x / 2 ^ 12)).getD s.mem_unbacked_pt_page + x % 2 ^ 12 / 4

def entry32 (s : MmuState) (x : Nat) : BitVec 32 := s.host (cell s x)

def entry64 (s : MmuState) (x : Nat) : BitVec 64 := s.host (cell s x + 1) ++ s.host (cell s x)

section

variable {w : Nat} (e : BitVec w)

def present : Bool := e.getLsbD 0

def writable : Bool := e.getLsbD 1

def userPage : Bool := e.getLsbD 2

def large : Bool := e.getLsbD 7

/-- The frame number, in units of `2 ^ k` bytes. The entries of PAE have 40 bits of address. -/
def frame (k : Nat) : Nat := e.toNat / 2 ^ k % 2 ^ (40 - k)

end

/-! ## Accesses -/

/-- WP binds the supervisor too. No CPU before the 486 has it, and every one with PAE does. -/
def WpBinds (s : MmuState) : Prop :=
  s.cr0 &&& WP_FLAG ≠ 0 ∧ (s.cr4 &&& CR4_PAE ≠ 0 ∨ s.is486 = true ∨ s.isibm486 = true)

/-- The user and write bits of the page allow the access. -/
def Allows (s : MmuState) (rw user writable : Bool) : Prop :=
  s.cpl_override = true ∨
    ((CPL s = 3 → user = true) ∧
      (rw = true → writable = true ∨ (CPL s ≠ 3 ∧ ¬WpBinds s)))

instance (s : MmuState) : Decidable (WpBinds s) := by
  unfold WpBinds
  infer_instance

instance (s : MmuState) (rw user writable : Bool) : Decidable (Allows s rw user writable) := by
  unfold Allows
  infer_instance

/-! ## Walks -/

/-- How a walk ends: with a page fault, of a page that is present or not, or with an address. -/
inductive Outcome where
  | fault (present : Bool)
  | page (address : Nat) (upper : List Nat) (leaf : Nat)
deriving DecidableEq

/-- The two levels of 32-bit entries. -/
def twoLevels (addr : BitVec 32) (rw : Bool) (s : MmuState) : Outcome :=
  let directory := 2 ^ 12 * (s.cr3.toNat / 2 ^ 12) + 4 * (addr.toNat / 2 ^ 22)
  let pde := entry32 s directory
  if present pde = false then .fault false
  else if large pde = true ∧ s.cr4 &&& CR4_PSE ≠ 0 then
    let high := if s.cpu_features &&& CPU_FEATURE_PSE36 ≠ 0 then pde.toNat / 2 ^ 13 % 2 ^ 4 else 0
    if Allows s rw (userPage pde) (writable pde) then
      .page (2 ^ 32 * high + 2 ^ 22 * frame pde 22 + addr.toNat % 2 ^ 22) [] directory
    else .fault true
  else
    let table := 2 ^ 12 * frame pde 12 + 4 * (addr.toNat / 2 ^ 12 % 2 ^ 10)
    let pte := entry32 s table
    if present pte = false then .fault false
    else if Allows s rw (userPage pde && userPage pte) (writable pde && writable pte) then
      .page (2 ^ 12 * frame pte 12 + addr.toNat % 2 ^ 12) [directory] table
    else .fault true

/-- The three levels of 64-bit entries. The entry of the first level has no rights and no
accessed bit. -/
def threeLevels (addr : BitVec 32) (rw : Bool) (s : MmuState) : Outcome :=
  let pointers := 2 ^ 5 * (s.cr3.toNat / 2 ^ 5) + 8 * (addr.toNat / 2 ^ 30)
  let pdpte := entry64 s pointers
  if present pdpte = false then .fault false
  else
    let directory := 2 ^ 12 * frame pdpte 12 + 8 * (addr.toNat / 2 ^ 21 % 2 ^ 9)
    let pde := entry64 s directory
    if present pde = false then .fault false
    else if large pde = true then
      if Allows s rw (userPage pde) (writable pde) then
        .page (2 ^ 21 * frame pde 21 + addr.toNat % 2 ^ 21) [] directory
      else .fault true
    else
      let table := 2 ^ 12 * frame pde 12 + 8 * (addr.toNat / 2 ^ 12 % 2 ^ 9)
      let pte := entry64 s table
      if present pte = false then .fault false
      else if Allows s rw (userPage pde && userPage pte) (writable pde && writable pte) then
        .page (2 ^ 12 * frame pte 12 + addr.toNat % 2 ^ 12) [directory] table
      else .fault true

def walk (addr : BitVec 32) (rw : Bool) (s : MmuState) : Outcome :=
  if s.cr4 &&& CR4_PAE ≠ 0 then threeLevels addr rw s else twoLevels addr rw s

/-! ## What a walk leaves -/

def ACCESSED : BitVec 32 := 0x20

def DIRTY : BitVec 32 := 0x40

/-- The error code: P, W and U. -/
def errorCode (present write user : Bool) : BitVec 32 :=
  (if present then 1 else 0) ||| (if write then 2 else 0) ||| (if user then 4 else 0)

/-- Accessed in each entry that was used, and dirty in the last one for a write. -/
def usedHost (rw : Bool) (upper : List Nat) (leaf : Nat) (s : MmuState) : Nat → BitVec 32 :=
  fun i => s.host i |||
    (if i = cell s leaf ∨ ∃ x ∈ upper, i = cell s x then ACCESSED else 0) |||
    (if rw = true ∧ i = cell s leaf then DIRTY else 0)

/-- The state and the value that a walk ends with. -/
def Outcome.result (addr : BitVec 32) (rw : Bool) (s : MmuState) : Outcome → MmuState × BitVec 64
  | .fault present =>
    ({ s with cr2 := addr, abrt := ABRT_PF, abrt_error := errorCode present rw (CPL s = 3) },
      PHYS_INVALID)
  | .page address upper leaf =>
    ({ s with host := usedHost rw upper leaf s }, BitVec.ofNat 64 address)

end blumach.mmu
