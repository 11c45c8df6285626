-- The list of pages whose code can be purged, of `mem/mem.c`, and the two walks that
-- change it: `mem_invalidate_range` and the end of `codegen_check_flush`.
import Mathlib.Data.BitVec
import Mathlib.Logic.Function.Basic

namespace blumach.evict_list

/-! ## Pages -/

/-- The masks of a page. The byte masks have 64 words. -/
structure Masks where
  code_present_mask : BitVec 64
  dirty_mask : BitVec 64
  byte_code_present_mask : Fin 64 → BitVec 64
  byte_dirty_mask : Fin 64 → BitVec 64
  /-- `mem != page_ff`, and the page has a `byte_dirty_mask` -/
  has_byte_mask : Bool

/-- `page_t`, as far as the list is concerned. An `evict_prev` of `none` is
`EVICT_NOT_IN_LIST`, which is the number of no page. -/
structure Page extends Masks where
  evict_prev : Option Nat
  evict_next : Nat

structure EvictState where
  pages : Nat → Page
  purgable_page_list_head : Nat
  purgeable_page_count : Int

def page_in_evict_list (page : Page) : Bool := page.evict_prev.isSome

/-! ## The list -/

def setPrev (p : Nat) (prev : Option Nat) (s : EvictState) : EvictState :=
  { s with pages := Function.update s.pages p { s.pages p with evict_prev := prev } }

def setNext (p : Nat) (next : Nat) (s : EvictState) : EvictState :=
  { s with pages := Function.update s.pages p { s.pages p with evict_next := next } }

def setMasks (p : Nat) (m : Masks) (s : EvictState) : EvictState :=
  { s with pages := Function.update s.pages p { s.pages p with toMasks := m } }

/-- The new head is read back from the page that was the head, after it was stored. -/
def page_add_to_evict_list (page : Nat) (s : EvictState) : EvictState :=
  let s := setPrev s.purgable_page_list_head (some page) s
  let s := setNext page s.purgable_page_list_head s
  let s := setPrev page (some 0) s
  { s with
    purgable_page_list_head := ((s.pages s.purgable_page_list_head).evict_prev).getD 0
    purgeable_page_count := s.purgeable_page_count + 1 }

/-- Fatal if the page is not in the list. -/
def page_remove_from_evict_list (page : Nat) (s : EvictState) : Option EvictState :=
  match (s.pages page).evict_prev with
  | none => none
  | some prev =>
    let s :=
      if prev ≠ 0 then setNext prev (s.pages page).evict_next s
      else { s with purgable_page_list_head := (s.pages page).evict_next }
    let next := (s.pages page).evict_next
    let s := if next ≠ 0 then setPrev next (s.pages page).evict_prev s else s
    let s := setPrev page none s
    some { s with purgeable_page_count := s.purgeable_page_count - 1 }

/-! ## The walks that purge -/

/-- What `mem_invalidate_range` does to a page. -/
def invalidatePage (pages_sz page : Nat) (s : EvictState) : EvictState :=
  if page ≥ pages_sz then s
  else
    let m := (s.pages page).toMasks
    let s := setMasks page
      { m with
        dirty_mask := BitVec.allOnes 64
        byte_dirty_mask :=
          if m.has_byte_mask then fun _ => BitVec.allOnes 64 else m.byte_dirty_mask } s
    if page_in_evict_list (s.pages page) then s else page_add_to_evict_list page s

/-- After 2^20 pages the address has come round, and the loop does not end. -/
def invalidateLoop (pages_sz : Nat) : Nat → BitVec 32 → BitVec 32 → EvictState → Option EvictState
  | fuel, start_addr, end_addr, s =>
    if start_addr ≤ end_addr then
      match fuel with
      | 0 => none
      | fuel + 1 =>
        invalidateLoop pages_sz fuel (start_addr + 0x1000) end_addr
          (invalidatePage pages_sz (start_addr >>> 12).toNat s)
    else some s

def alignDown (addr : BitVec 32) : BitVec 32 := addr &&& ~~~63

def mem_invalidate_range (pages_sz : Nat) (start_addr end_addr : BitVec 32) (s : EvictState) :
    Option EvictState :=
  invalidateLoop pages_sz (2 ^ 20) (alignDown start_addr) (alignDown (end_addr + 63)) s

/-- The `remove_from_evict_list` of `codegen_check_flush`. -/
def removeFromEvictList (m : Masks) : Bool :=
  m.code_present_mask &&& m.dirty_mask ≠ 0 ∧
    ∀ c, m.byte_code_present_mask c &&& m.byte_dirty_mask c = 0

def flushMasks (m : Masks) : Masks :=
  { m with
    code_present_mask := m.code_present_mask &&& ~~~m.dirty_mask
    dirty_mask := 0
    byte_code_present_mask := fun c => m.byte_code_present_mask c &&& ~~~m.byte_dirty_mask c
    byte_dirty_mask := fun _ => 0 }

/-- From the masks of the page on. What comes before, for the blocks of the page, leaves
this state as it is. -/
def codegen_check_flush (page : Nat) (s : EvictState) : Option EvictState :=
  let remove_from_evict_list := removeFromEvictList (s.pages page).toMasks
  let s := setMasks page (flushMasks (s.pages page).toMasks) s
  if remove_from_evict_list then page_remove_from_evict_list page s else some s

/-! ## Runs -/

inductive Op where
  | add (page : Nat)
  | remove (page : Nat)
  | invalidate (start_addr end_addr : BitVec 32)
  | flush (page : Nat)
  /-- A guest writes to the page, or code is marked present in it. -/
  | marks (page : Nat) (m : Masks)

/-- The callers add a page that is not in the list, and remove one that is. -/
def Legal (pages_sz : Nat) (s : EvictState) : Op → Prop
  | .add page => page < pages_sz ∧ page_in_evict_list (s.pages page) = false
  | .remove page => page < pages_sz ∧ page_in_evict_list (s.pages page) = true
  | .invalidate _ _ => True
  | .flush page => page < pages_sz
  | .marks page _ => page < pages_sz

def step (pages_sz : Nat) : Op → EvictState → Option EvictState
  | .add page, s => some (page_add_to_evict_list page s)
  | .remove page, s => page_remove_from_evict_list page s
  | .invalidate start_addr end_addr, s => mem_invalidate_range pages_sz start_addr end_addr s
  | .flush page, s => codegen_check_flush page s
  | .marks page m, s => some (setMasks page m s)

/-- After `mem_init` and `mem_reset`. -/
structure Empty (s : EvictState) : Prop where
  evict_prev : ∀ p, (s.pages p).evict_prev = none
  head : s.purgable_page_list_head = 0
  count : s.purgeable_page_count = 0

/-- The operations of a run so far, each with the state that it found, and the state now. -/
inductive Run (pages_sz : Nat) : List (EvictState × Op) → EvictState → Prop
  | start {s : EvictState} : Empty s → Run pages_sz [] s
  | step {l : List (EvictState × Op)} {s s' : EvictState} {op : Op} :
      Run pages_sz l s → Legal pages_sz s op → step pages_sz op s = some s' →
        Run pages_sz (l ++ [(s, op)]) s'

end blumach.evict_list
