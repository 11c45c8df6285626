-- The tree of the code blocks of a page, from `codegen_new/codegen.h`. A block is
-- its number, and number 0 is `BLOCK_INVALID`.
import Mathlib.Data.BitVec
import Mathlib.Data.Set.Insert
import Mathlib.Logic.Function.Basic

namespace blumach.codeblock_tree

/-! ## The data -/

abbrev Block := BitVec 16

def BLOCK_INVALID : Block := 0

def CPU_STATUS_FLAGS : BitVec 16 := 0xff

def CPU_STATUS_MASK : BitVec 16 := 0xff00

/-- The fields of `codeblock[]` that the tree uses, and `pages[].head`. -/
structure TreeState where
  phys : Block → BitVec 32
  _cs : Block → BitVec 32
  status : Block → BitVec 16
  parent : Block → Block
  left : Block → Block
  right : Block → Block
  head : BitVec 32 → Block

def cmp (_cs phys : BitVec 32) : BitVec 64 := _cs.setWidth 64 ||| (phys.setWidth 64 <<< 32)

def block_cmp (s : TreeState) (block : Block) : BitVec 64 := cmp (s._cs block) (s.phys block)

/-- Each loop meets a block once at most, and then ends. -/
def fuel : Nat := 2 ^ 16 + 1

/-! ## Search and insertion

A result of `none` is a loop that does not end. -/

def statusFits (status cpu_cur_status : BitVec 16) : Bool :=
  (status ^^^ cpu_cur_status) &&& CPU_STATUS_FLAGS == 0 &&
    status &&& cpu_cur_status &&& CPU_STATUS_MASK == cpu_cur_status &&& CPU_STATUS_MASK

def findLoop (a : BitVec 64) (cpu_cur_status : BitVec 16) (s : TreeState) :
    Nat → Block → Option Block
  | 0, _ => none
  | fuel + 1, block =>
    if block = BLOCK_INVALID then some BLOCK_INVALID
    else if a = block_cmp s block ∧ statusFits (s.status block) cpu_cur_status = true then
      some block
    else if a < block_cmp s block then findLoop a cpu_cur_status s fuel (s.left block)
    else findLoop a cpu_cur_status s fuel (s.right block)

/-- `BLOCK_INVALID` stands for `NULL`. -/
def codeblock_tree_find (phys _cs : BitVec 32) (cpu_cur_status : BitVec 16) (s : TreeState) :
    Option Block :=
  if s.head (phys >>> 12) = BLOCK_INVALID then some BLOCK_INVALID
  else findLoop (cmp _cs phys) cpu_cur_status s fuel (s.head (phys >>> 12))

/-- The loop of `codeblock_tree_add`, which keeps the last block that it met. -/
def addLoop (a : BitVec 64) (s : TreeState) : Nat → Block → Block → Option Block
  | 0, _, _ => none
  | fuel + 1, block, old_block =>
    if block = BLOCK_INVALID then some old_block
    else if a < block_cmp s block then addLoop a s fuel (s.left block) block
    else addLoop a s fuel (s.right block) block

def codeblock_tree_add (new_block : Block) (s : TreeState) : Option TreeState :=
  let page := s.phys new_block >>> 12
  let a := block_cmp s new_block
  if s.head page = BLOCK_INVALID then
    some { s with
      head := Function.update s.head page new_block
      parent := Function.update s.parent new_block BLOCK_INVALID
      left := Function.update s.left new_block BLOCK_INVALID
      right := Function.update s.right new_block BLOCK_INVALID }
  else
    match addLoop a s fuel (s.head page) BLOCK_INVALID with
    | none => none
    | some old_block =>
      let s :=
        if old_block ≠ BLOCK_INVALID then
          let s :=
            if a < block_cmp s old_block then
              { s with left := Function.update s.left old_block new_block }
            else { s with right := Function.update s.right old_block new_block }
          { s with parent := Function.update s.parent new_block old_block }
        else { s with parent := Function.update s.parent new_block BLOCK_INVALID }
      some { s with
        left := Function.update s.left new_block BLOCK_INVALID
        right := Function.update s.right new_block BLOCK_INVALID }

/-! ## Deletion -/

/-- `block` makes way for `nr` in the links of its parent, or at the head. -/
def replaceChild (block nr : Block) (s : TreeState) : TreeState :=
  let parent_nr := s.parent block
  if parent_nr = BLOCK_INVALID then
    { s with head := Function.update s.head (s.phys block >>> 12) nr }
  else
    let s :=
      if s.left parent_nr = block then { s with left := Function.update s.left parent_nr nr }
      else s
    if s.right parent_nr = block then { s with right := Function.update s.right parent_nr nr }
    else s

/-- The only child takes the place of `block`. -/
def promote (block child : Block) (s : TreeState) : TreeState :=
  let parent_nr := s.parent block
  if parent_nr = BLOCK_INVALID then
    { s with
      head := Function.update s.head (s.phys block >>> 12) child
      parent := Function.update s.parent child BLOCK_INVALID }
  else
    let s :=
      if s.left parent_nr = block then
        { s with
          left := Function.update s.left parent_nr child
          parent := Function.update s.parent child parent_nr }
      else s
    if s.right parent_nr = block then
      { s with
        right := Function.update s.right parent_nr child
        parent := Function.update s.parent child parent_nr }
    else s

/-- `while (lowest->left)` and `while (highest->right)`. -/
def walk (link : Block → Block) : Nat → Block → Option Block
  | 0, _ => none
  | fuel + 1, block =>
    if link block = BLOCK_INVALID then some block else walk link fuel (link block)

/-- The part of the two-child case before the search for `highest`. -/
def replaceByLowest (block lowest : Block) (s : TreeState) : TreeState :=
  let parent_nr := s.parent block
  let old_parent := s.parent lowest
  let s := replaceChild block lowest s
  let s := { s with parent := Function.update s.parent lowest parent_nr }
  let s := { s with left := Function.update s.left lowest (s.left block) }
  let s :=
    if s.left lowest ≠ BLOCK_INVALID then
      { s with parent := Function.update s.parent (s.left lowest) lowest }
    else s
  { s with left := Function.update s.left old_parent BLOCK_INVALID }

/-- What stood to the right of `block` goes to the right of `nr`. -/
def hang (block nr : Block) (s : TreeState) : TreeState :=
  let s := { s with right := Function.update s.right nr (s.right block) }
  { s with parent := Function.update s.parent (s.right block) nr }

def deleteTwo (block : Block) (s : TreeState) : Option TreeState :=
  match walk s.left fuel (s.right block) with
  | none => none
  | some lowest =>
    let s := replaceByLowest block lowest s
    if s.right lowest = BLOCK_INVALID then
      if lowest ≠ s.right block then some (hang block lowest s) else some s
    else
      match walk s.right fuel (s.right lowest) with
      | none => none
      | some highest =>
        if s.right block ≠ BLOCK_INVALID ∧ s.right block ≠ lowest then
          some (hang block highest s)
        else some s

def codeblock_tree_delete (block : Block) (s : TreeState) : Option TreeState :=
  if s.left block = BLOCK_INVALID ∧ s.right block = BLOCK_INVALID then
    some (replaceChild block BLOCK_INVALID s)
  else if s.left block = BLOCK_INVALID then some (promote block (s.right block) s)
  else if s.right block = BLOCK_INVALID then some (promote block (s.left block) s)
  else deleteTwo block s

/-! ## Runs -/

/-- The states of any run of calls, each with the blocks that are in the trees. A
block keeps its key as long as it is in a tree. -/
inductive Reached : TreeState → Set Block → Prop
  | init (s : TreeState) (h : ∀ page, s.head page = BLOCK_INVALID) : Reached s ∅
  | add {s s' : TreeState} {live : Set Block} (block : Block) (h : Reached s live)
      (hb : block ≠ BLOCK_INVALID) (hn : block ∉ live) (hs : codeblock_tree_add block s = some s') :
      Reached s' (insert block live)
  | delete {s s' : TreeState} {live : Set Block} (block : Block) (h : Reached s live)
      (hb : block ∈ live) (hs : codeblock_tree_delete block s = some s') :
      Reached s' (live \ {block})
  | set_key {s : TreeState} {live : Set Block} (block : Block) (phys _cs : BitVec 32)
      (h : Reached s live) (hn : block ∉ live) :
      Reached { s with
        phys := Function.update s.phys block phys
        _cs := Function.update s._cs block _cs } live
  | set_status {s : TreeState} {live : Set Block} (block : Block) (status : BitVec 16)
      (h : Reached s live) :
      Reached { s with status := Function.update s.status block status } live

end blumach.codeblock_tree
