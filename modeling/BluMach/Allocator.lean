-- The allocator of translated code of `codegen_new/codegen_allocator.c`. Memory
-- comes in blocks; the blocks of one code block form a chain. The code blocks
-- that own memory stand in a list, and the allocator evicts from it when the
-- pool is empty.
import BluMach.LinkedList
import Mathlib.Algebra.GroupWithZero.Nat

namespace blumach.codegen_allocator

open linked_list

/-! ## The data -/

def BLOCK_SIZE : Nat := 0x4000
/-- The number of a code block. -/
abbrev CodeBlock := Fin BLOCK_SIZE

instance : NeZero BLOCK_SIZE := ⟨by decide⟩

/-- `mem_block_t`. `next` and `tail` count blocks from 1, and 0 is none. -/
structure MemBlock where
  next : Nat
  tail : Nat
  code_block : CodeBlock
deriving DecidableEq

/-- The variables of the allocator, and the two fields of `codeblock_t` that an
eviction reads. A pointer into `mem_code_blocks` or `mem_blocks` is an index. -/
structure AllocState where
  valid_code_blocks : CodeBlock → Bool
  cb_prev : CodeBlock → Option CodeBlock
  cb_next : CodeBlock → Option CodeBlock
  cb_number : CodeBlock → CodeBlock
  mem_code_block_head : Option CodeBlock
  mem_code_block_tail : Option CodeBlock
  mem_blocks : Nat → MemBlock
  mem_block_free_list : Nat
  codegen_allocator_usage : Int
  valid : CodeBlock → Bool
  head_mem_block : CodeBlock → Option Nat

/-! ## The list of owners -/

def remove_from_block_list (block : CodeBlock) (s : AllocState) : AllocState :=
  let s := { s with
    valid_code_blocks := Function.update s.valid_code_blocks (s.cb_number block) false }
  let s :=
    match s.cb_prev block with
    | some p =>
      let s := { s with cb_next := Function.update s.cb_next p (s.cb_next block) }
      match s.cb_next block with
      | some n => { s with cb_prev := Function.update s.cb_prev n (s.cb_prev block) }
      | none => { s with mem_code_block_tail := s.cb_prev block }
    | none =>
      match s.cb_next block with
      | some n =>
        let s := { s with mem_code_block_head := some n }
        match s.cb_next n with
        | some m => { s with cb_prev := Function.update s.cb_prev m (some n) }
        | none => s
      | none =>
        if s.mem_code_block_head = some block then
          { s with mem_code_block_head := none, mem_code_block_tail := none }
        else s
  { s with
    cb_next := Function.update s.cb_next block none
    cb_prev := Function.update s.cb_prev block none }

def add_to_block_list (code_block : CodeBlock) (s : AllocState) : AllocState :=
  match s.mem_code_block_head, s.mem_code_block_tail with
  | some _, some tail =>
    { s with
      cb_next := Function.update s.cb_next tail (some code_block)
      cb_prev := Function.update s.cb_prev code_block (some tail)
      mem_code_block_tail := some code_block
      cb_number := Function.update s.cb_number code_block code_block }
  | some _, none => s  -- a store through a null tail: no state of a run has it
  | none, _ =>
    { s with
      mem_code_block_head := some code_block
      mem_code_block_tail := some code_block
      cb_number := Function.update s.cb_number code_block code_block }

/-! ## The pool -/

/-- All of the pool is free, and no code block owns any. -/
def codegen_allocator_init (MEM_BLOCK_NR : Nat) : AllocState :=
  { valid_code_blocks := fun _ => false
    cb_prev := fun _ => none
    cb_next := fun _ => none
    cb_number := fun _ => 0
    mem_code_block_head := none
    mem_code_block_tail := none
    mem_blocks := fun c =>
      { next := if c < MEM_BLOCK_NR - 1 then c + 2 else 0, tail := 0, code_block := 0 }
    mem_block_free_list := 1
    codegen_allocator_usage := 0
    valid := fun _ => false
    head_mem_block := fun _ => none }

/-- A store to some fields of a memory block. -/
def modifyBlock (b : Nat) (f : MemBlock → MemBlock) (s : AllocState) : AllocState :=
  { s with mem_blocks := Function.update s.mem_blocks b (f (s.mem_blocks b)) }

/-- The `while (1)` of `codegen_allocator_free`. No run of it is longer than the
pool. -/
def freeLoop : Nat → Nat → Nat → AllocState → Option AllocState
  | 0, _, _, _ => none
  | fuel + 1, block_nr, block, s =>
    let next_block_nr := (s.mem_blocks block).next
    let s := { s with codegen_allocator_usage := s.codegen_allocator_usage - 1 }
    let s := modifyBlock block
      (fun b => { b with next := s.mem_block_free_list, code_block := 0 }) s
    let s := { s with mem_block_free_list := block_nr }
    if next_block_nr ≠ 0 then freeLoop fuel next_block_nr (next_block_nr - 1) s else some s

def codegen_allocator_free (MEM_BLOCK_NR : Nat) (block : Nat) (s : AllocState) :
    Option AllocState :=
  let block_nr := block + 1
  let s := modifyBlock block (fun b => { b with tail := 0 }) s
  let code_block := (s.mem_blocks block).code_block
  let s := if s.valid_code_blocks code_block then remove_from_block_list code_block s else s
  freeLoop MEM_BLOCK_NR block_nr block s

/-- `codegen_delete_block`, as far as the allocator sees it. -/
def codegen_delete_block (MEM_BLOCK_NR : Nat) (n : CodeBlock) (s : AllocState) :
    Option AllocState :=
  if s.valid n then
    let s := { s with valid := Function.update s.valid n false }
    match s.head_mem_block n with
    | some b => do
      let s ← codegen_allocator_free MEM_BLOCK_NR b s
      some { s with head_mem_block := Function.update s.head_mem_block n none }
    | none => some s
  else some s

/-- The `while (mem_code_block)` of `codegen_allocator_allocate`. -/
def evictLoop (MEM_BLOCK_NR : Nat) (code_block : CodeBlock) :
    Nat → Option CodeBlock → AllocState → Option AllocState
  | _, none, s => some s
  | 0, some _, _ => none
  | fuel + 1, some m, s => do
    let s ← if code_block ≠ s.cb_number m then
        codegen_delete_block MEM_BLOCK_NR (s.cb_number m) s
      else some s
    evictLoop MEM_BLOCK_NR code_block fuel (s.cb_next m) s

/-- From `block_allocate` on. -/
def takeBlock (parent : Option Nat) (code_block : CodeBlock) (s : AllocState) :
    AllocState × Nat :=
  let block_nr := s.mem_block_free_list
  let block := block_nr - 1
  let s := { s with mem_block_free_list := (s.mem_blocks block).next }
  let s := modifyBlock block (fun b => { b with code_block }) s
  let s :=
    match parent with
    | some parent =>
      let tail := (s.mem_blocks parent).tail
      let s :=
        if tail ≠ 0 then
          modifyBlock parent (fun b => { b with tail := block_nr })
            (modifyBlock (tail - 1) (fun b => { b with next := block_nr }) s)
        else modifyBlock parent (fun b => { b with next := block_nr, tail := block_nr }) s
      modifyBlock block (fun b => { b with next := 0, tail := 0 }) s
    | none =>
      let s := modifyBlock block (fun b => { b with next := 0, tail := 0 }) s
      if !s.valid_code_blocks code_block then
        add_to_block_list code_block { s with
          valid_code_blocks := Function.update s.valid_code_blocks code_block true }
      else s
  ({ s with codegen_allocator_usage := s.codegen_allocator_usage + 1 }, block)

/-- The end of a call: a block, the fatal error, or a loop that does not end. -/
inductive Outcome where
  | done (s : AllocState) (block : Nat)
  | fatal
  | stuck

def codegen_allocator_allocate (MEM_BLOCK_NR : Nat) (parent : Option Nat)
    (code_block : CodeBlock) (s : AllocState) : Outcome :=
  let take := fun s =>
    Outcome.done (takeBlock parent code_block s).1 (takeBlock parent code_block s).2
  if s.mem_block_free_list = 0 then
    if s.mem_code_block_head = s.mem_code_block_tail then .fatal
    else
      match evictLoop MEM_BLOCK_NR code_block BLOCK_SIZE s.mem_code_block_head s with
      | none => .stuck
      | some s => if s.mem_block_free_list ≠ 0 then take s else .fatal
  else take s

/-! ## Runs

The callers keep the first block of a code block in its `head_mem_block`. They
free no other block, and add to no other chain. -/

inductive AllocOp where
  /-- A first block for code block `n`. -/
  | allocate (n : CodeBlock)
  /-- One more block for code block `n`. -/
  | grow (n : CodeBlock)
  | free (n : CodeBlock)
  | delete (n : CodeBlock)
  /-- `codegen_block_init` makes code block `n` valid. -/
  | validate (n : CodeBlock)

inductive Result where
  | ok (s : AllocState)
  | fatal
  | stuck

def ofOption : Option AllocState → Result
  | some s => .ok s
  | none => .stuck

def step (MEM_BLOCK_NR : Nat) : AllocOp → AllocState → Result
  | .allocate n, s =>
    match codegen_allocator_allocate MEM_BLOCK_NR none n s with
    | .done s b => .ok { s with head_mem_block := Function.update s.head_mem_block n (some b) }
    | .fatal => .fatal
    | .stuck => .stuck
  | .grow n, s =>
    match s.head_mem_block n with
    | some h =>
      match codegen_allocator_allocate MEM_BLOCK_NR (some h) n s with
      | .done s _ => .ok s
      | .fatal => .fatal
      | .stuck => .stuck
    | none => .ok s
  | .free n, s =>
    match s.head_mem_block n with
    | some b =>
      ofOption ((codegen_allocator_free MEM_BLOCK_NR b s).map fun s =>
        { s with head_mem_block := Function.update s.head_mem_block n none })
    | none => .ok s
  | .delete n, s => ofOption (codegen_delete_block MEM_BLOCK_NR n s)
  | .validate n, s => .ok { s with valid := Function.update s.valid n true }

end blumach.codegen_allocator
