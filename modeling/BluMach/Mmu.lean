-- The two page walkers of `mem/mem.c`: `mmutranslatereal`, which sets the accessed and
-- dirty bits and raises the page fault, and `mmutranslate_noabrt`, which only looks.
import Mathlib.Data.BitVec
import Mathlib.Logic.Function.Basic

namespace blumach.mmu

/-! ## State -/

def WP_FLAG : BitVec 32 := 0x10000
def CR4_PSE : BitVec 32 := 1 <<< 4
def CR4_PAE : BitVec 32 := 1 <<< 5
def CPU_FEATURE_PSE36 : BitVec 32 := 1 <<< 9
def ABRT_PF : BitVec 32 := 0xe

/-- The failure value. -/
def PHYS_INVALID : BitVec 64 := 0xffffffffffffffff

/-- The variables of the walkers. The memory of the host is a table of dwords;
`_mem_exec` gives the first dword behind a physical page, or none for NULL. -/
structure MmuState where
  cr0 : BitVec 32
  cr2 : BitVec 32
  cr3 : BitVec 32
  cr4 : BitVec 32
  seg_cs_access : BitVec 8
  cpl_override : Bool
  is486 : Bool
  isibm486 : Bool
  cpu_features : BitVec 32
  abrt : BitVec 32
  abrt_error : BitVec 32
  _mem_exec : Nat → Option Nat
  mem_unbacked_pt_page : Nat
  host : Nat → BitVec 32

def CPL (s : MmuState) : BitVec 8 := (s.seg_cs_access >>> 5) &&& 3

def rammap_backing (x : BitVec 64) (s : MmuState) : Nat :=
  (s._mem_exec (x >>> 12).toNat).getD s.mem_unbacked_pt_page

/-- The dword behind `rammap(x)`. -/
def rammapIndex (x : BitVec 32) (s : MmuState) : Nat :=
  rammap_backing (x.setWidth 64) s + ((x >>> 2) &&& 0x3ff).toNat

def rammap (x : BitVec 32) (s : MmuState) : BitVec 32 := s.host (rammapIndex x s)

/-- `rammap(x) |= bits` -/
def rammapOr (x bits : BitVec 32) (s : MmuState) : MmuState :=
  { s with host := Function.update s.host (rammapIndex x s) (rammap x s ||| bits) }

/-- The low dword behind `rammap64(x)`; the high one follows. -/
def rammap64Index (x : BitVec 64) (s : MmuState) : Nat :=
  rammap_backing x s + 2 * ((x >>> 3) &&& 0x1ff).toNat

def rammap64 (x : BitVec 64) (s : MmuState) : BitVec 64 :=
  s.host (rammap64Index x s + 1) ++ s.host (rammap64Index x s)

/-- `rammap64(x) |= bits`, for bits of the low dword -/
def rammap64Or (x : BitVec 64) (bits : BitVec 32) (s : MmuState) : MmuState :=
  { s with host :=
      Function.update s.host (rammap64Index x s) (s.host (rammap64Index x s) ||| bits) }

/-! ## The walker that aborts -/

/-- The store of `cr2` and of the error code, for the entry where the walk ends. -/
def pageFault (addr : BitVec 32) (rw : Bool) (temp : BitVec 32) (s : MmuState) : MmuState :=
  let temp := temp &&& 1
  let temp := if CPL s = 3 then temp ||| 4 else temp
  let temp := if rw then temp ||| 2 else temp
  { s with cr2 := addr, abrt := ABRT_PF, abrt_error := temp }

def mmutranslatereal_normal (addr : BitVec 32) (rw : Bool) (s : MmuState) :
    MmuState × BitVec 64 :=
  if s.abrt ≠ 0 then (s, PHYS_INVALID)
  else
    let addr2 := (s.cr3 &&& ~~~0xfff#32) + ((addr >>> 20) &&& 0xffc)
    let temp2 := rammap addr2 s
    if temp2 &&& 1 = 0 then (pageFault addr rw temp2 s, PHYS_INVALID)
    else if temp2 &&& 0x80 ≠ 0 ∧ s.cr4 &&& CR4_PSE ≠ 0 then
      -- 4MB page
      if (CPL s = 3 ∧ temp2 &&& 4 = 0 ∧ s.cpl_override = false) ∨
          (rw = true ∧ s.cpl_override = false ∧ temp2 &&& 2 = 0 ∧
            ((CPL s = 3 ∧ s.cpl_override = false) ∨
              ((s.is486 = true ∨ s.isibm486 = true) ∧ s.cr0 &&& WP_FLAG ≠ 0))) then
        (pageFault addr rw temp2 s, PHYS_INVALID)
      else
        let s := rammapOr addr2 (if rw then 0x60 else 0x20) s
        let page := (temp2 &&& ~~~0x3fffff#32).setWidth 64
        let page :=
          if s.cpu_features &&& CPU_FEATURE_PSE36 ≠ 0 then
            page ||| ((temp2 &&& 0x1e000).setWidth 64 <<< 19)
          else page
        (s, page + (addr &&& 0x3fffff).setWidth 64)
    else
      let addr3 := (temp2 &&& ~~~0xfff#32) + ((addr >>> 10) &&& 0xffc)
      let temp := rammap addr3 s
      let temp3 := temp &&& temp2
      if temp &&& 1 = 0 ∨ (CPL s = 3 ∧ temp3 &&& 4 = 0 ∧ s.cpl_override = false) ∨
          (rw = true ∧ s.cpl_override = false ∧ temp3 &&& 2 = 0 ∧
            ((CPL s = 3 ∧ s.cpl_override = false) ∨
              ((s.is486 = true ∨ s.isibm486 = true) ∧ s.cr0 &&& WP_FLAG ≠ 0))) then
        (pageFault addr rw temp s, PHYS_INVALID)
      else
        let s := rammapOr addr2 0x20 s
        let s := rammapOr addr3 (if rw then 0x60 else 0x20) s
        (s, ((temp &&& ~~~0xfff#32) + (addr &&& 0xfff)).setWidth 64)

def mmutranslatereal_pae (addr : BitVec 32) (rw : Bool) (s : MmuState) : MmuState × BitVec 64 :=
  if s.abrt ≠ 0 then (s, PHYS_INVALID)
  else
    let addr2 := ((s.cr3 &&& ~~~0x1f#32) + ((addr >>> 27) &&& 0x18)).setWidth 64
    let temp2 := rammap64 addr2 s &&& 0x000000ffffffffff
    if temp2 &&& 1 = 0 then (pageFault addr rw (temp2.setWidth 32) s, PHYS_INVALID)
    else
      let addr3 := (temp2 &&& ~~~0xfff#64) + ((addr >>> 18) &&& 0xff8).setWidth 64
      let temp4 := rammap64 addr3 s &&& 0x000000ffffffffff
      if temp4 &&& 1 = 0 then (pageFault addr rw (temp4.setWidth 32) s, PHYS_INVALID)
      else if temp4 &&& 0x80 ≠ 0 then
        -- 2MB page
        if (CPL s = 3 ∧ temp4 &&& 4 = 0 ∧ s.cpl_override = false) ∨
            (rw = true ∧ s.cpl_override = false ∧ temp4 &&& 2 = 0 ∧
              ((CPL s = 3 ∧ s.cpl_override = false) ∨ s.cr0 &&& WP_FLAG ≠ 0)) then
          (pageFault addr rw (temp4.setWidth 32) s, PHYS_INVALID)
        else
          let s := rammap64Or addr3 (if rw then 0x60 else 0x20) s
          (s, ((temp4 &&& ~~~0x1fffff#64) + (addr &&& 0x1fffff).setWidth 64) &&& 0x000000ffffffffff)
      else
        let addr4 := (temp4 &&& ~~~0xfff#64) + ((addr >>> 9) &&& 0xff8).setWidth 64
        let temp := rammap64 addr4 s &&& 0x000000ffffffffff
        let temp3 := temp &&& temp4
        if temp &&& 1 = 0 ∨ (CPL s = 3 ∧ temp3 &&& 4 = 0 ∧ s.cpl_override = false) ∨
            (rw = true ∧ s.cpl_override = false ∧ temp3 &&& 2 = 0 ∧
              ((CPL s = 3 ∧ s.cpl_override = false) ∨ s.cr0 &&& WP_FLAG ≠ 0)) then
          (pageFault addr rw (temp.setWidth 32) s, PHYS_INVALID)
        else
          let s := rammap64Or addr3 0x20 s
          let s := rammap64Or addr4 (if rw then 0x60 else 0x20) s
          (s, ((temp &&& ~~~0xfff#64) + (addr &&& 0xfff).setWidth 64) &&& 0x000000ffffffffff)

def mmutranslatereal (addr : BitVec 32) (rw : Bool) (s : MmuState) : MmuState × BitVec 64 :=
  if s.abrt ≠ 0 then (s, PHYS_INVALID)
  else if s.cr4 &&& CR4_PAE ≠ 0 then mmutranslatereal_pae addr rw s
  else mmutranslatereal_normal addr rw s

/-! ## The walker that does not -/

def mmutranslate_noabrt_normal (addr : BitVec 32) (rw : Bool) (s : MmuState) :
    MmuState × BitVec 64 :=
  if s.abrt ≠ 0 then (s, PHYS_INVALID)
  else
    let addr2 := (s.cr3 &&& ~~~0xfff#32) + ((addr >>> 20) &&& 0xffc)
    let temp2 := rammap addr2 s
    if temp2 &&& 1 = 0 then (s, PHYS_INVALID)
    else if temp2 &&& 0x80 ≠ 0 ∧ s.cr4 &&& CR4_PSE ≠ 0 then
      -- 4MB page
      if (CPL s = 3 ∧ temp2 &&& 4 = 0 ∧ s.cpl_override = false) ∨
          (rw = true ∧ s.cpl_override = false ∧ temp2 &&& 2 = 0 ∧
            (CPL s = 3 ∨ s.cr0 &&& WP_FLAG ≠ 0)) then
        (s, PHYS_INVALID)
      else
        let page := (temp2 &&& ~~~0x3fffff#32).setWidth 64
        let page :=
          if s.cpu_features &&& CPU_FEATURE_PSE36 ≠ 0 then
            page ||| ((temp2 &&& 0x1e000).setWidth 64 <<< 19)
          else page
        (s, page + (addr &&& 0x3fffff).setWidth 64)
    else
      let temp := rammap ((temp2 &&& ~~~0xfff#32) + ((addr >>> 10) &&& 0xffc)) s
      let temp3 := temp &&& temp2
      if temp &&& 1 = 0 ∨ (CPL s = 3 ∧ temp3 &&& 4 = 0 ∧ s.cpl_override = false) ∨
          (rw = true ∧ s.cpl_override = false ∧ temp3 &&& 2 = 0 ∧
            (CPL s = 3 ∨ s.cr0 &&& WP_FLAG ≠ 0)) then
        (s, PHYS_INVALID)
      else (s, ((temp &&& ~~~0xfff#32) + (addr &&& 0xfff)).setWidth 64)

def mmutranslate_noabrt_pae (addr : BitVec 32) (rw : Bool) (s : MmuState) :
    MmuState × BitVec 64 :=
  if s.abrt ≠ 0 then (s, PHYS_INVALID)
  else
    let addr2 := ((s.cr3 &&& ~~~0x1f#32) + ((addr >>> 27) &&& 0x18)).setWidth 64
    let temp2 := rammap64 addr2 s &&& 0x000000ffffffffff
    if temp2 &&& 1 = 0 then (s, PHYS_INVALID)
    else
      let addr3 := (temp2 &&& ~~~0xfff#64) + ((addr >>> 18) &&& 0xff8).setWidth 64
      let temp4 := rammap64 addr3 s &&& 0x000000ffffffffff
      if temp4 &&& 1 = 0 then (s, PHYS_INVALID)
      else if temp4 &&& 0x80 ≠ 0 then
        -- 2MB page
        if (CPL s = 3 ∧ temp4 &&& 4 = 0 ∧ s.cpl_override = false) ∨
            (rw = true ∧ s.cpl_override = false ∧ temp4 &&& 2 = 0 ∧
              (CPL s = 3 ∨ s.cr0 &&& WP_FLAG ≠ 0)) then
          (s, PHYS_INVALID)
        else
          (s, ((temp4 &&& ~~~0x1fffff#64) + (addr &&& 0x1fffff).setWidth 64) &&& 0x000000ffffffffff)
      else
        let addr4 := (temp4 &&& ~~~0xfff#64) + ((addr >>> 9) &&& 0xff8).setWidth 64
        let temp := rammap64 addr4 s &&& 0x000000ffffffffff
        let temp3 := temp &&& temp4
        if temp &&& 1 = 0 ∨ (CPL s = 3 ∧ temp3 &&& 4 = 0 ∧ s.cpl_override = false) ∨
            (rw = true ∧ s.cpl_override = false ∧ temp3 &&& 2 = 0 ∧
              (CPL s = 3 ∨ s.cr0 &&& WP_FLAG ≠ 0)) then
          (s, PHYS_INVALID)
        else (s, ((temp &&& ~~~0xfff#64) + (addr &&& 0xfff).setWidth 64) &&& 0x000000ffffffffff)

def mmutranslate_noabrt (addr : BitVec 32) (rw : Bool) (s : MmuState) : MmuState × BitVec 64 :=
  if s.abrt ≠ 0 then (s, PHYS_INVALID)
  else if s.cr4 &&& CR4_PAE ≠ 0 then mmutranslate_noabrt_pae addr rw s
  else mmutranslate_noabrt_normal addr rw s

end blumach.mmu
