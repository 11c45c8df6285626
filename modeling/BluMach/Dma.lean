-- The 8237 of `dma.c` on the path that is neither PS/2 nor advanced: the calls that move one
-- unit between a device and memory, and the registers that program a channel.
import Mathlib.Data.BitVec
import Mathlib.Logic.Function.Basic

namespace blumach.dma

/-! ## State -/

def DMA_NODATA : BitVec 32 := 0xffffffff

def DMA_OVER : BitVec 32 := 0x10000

/-- `dma_t`, less what only the PS/2 and the advanced path read, and the pages. -/
structure Dma_t where
  mode : BitVec 8
  cb : BitVec 16
  ab : BitVec 32
  ac : BitVec 32
  cc : Int
  /-- The channel moves words. -/
  size : Bool
  deriving DecidableEq, Repr

set_option linter.dupNamespace false in
structure State (Mem : Type) where
  dma : Nat → Dma_t
  dma_e : BitVec 8
  dma_m : BitVec 8
  dma_stat : BitVec 8
  dma_stat_rq : BitVec 8
  dma_stat_adv_pend : BitVec 8
  dma_command : Nat → BitVec 8
  /-- `dma_wp[0]`. -/
  dma_wp : Bool
  dma_req_is_soft : Bool
  dma_mask : BitVec 32
  mem : Mem
  /-- The addresses of all transfers so far, of the ones that only verify too. -/
  moved : List (BitVec 32)

/-- Physical memory, behind which a device can be. -/
structure Bus (Mem : Type) where
  mem_readb_phys : BitVec 32 → Mem → BitVec 8 × Mem
  mem_writeb_phys : BitVec 32 → BitVec 8 → Mem → Mem

variable {Mem : Type}

/-- `1 << channel`. -/
def bit (channel : Nat) : BitVec 8 := 1 <<< channel

def onChannel (channel : Nat) (f : Dma_t → Dma_t) (s : State Mem) : State Mem :=
  { s with dma := Function.update s.dma channel (f (s.dma channel)) }

/-! ## Memory -/

/-- `_dma_read`. -/
def dma_read (bus : Bus Mem) (addr : BitVec 32) (mem : Mem) : BitVec 16 × Mem :=
  let (temp, mem) := bus.mem_readb_phys addr mem
  (temp.setWidth 16, mem)

/-- `_dma_readw`. -/
def dma_readw (bus : Bus Mem) (addr : BitVec 32) (mem : Mem) : BitVec 16 × Mem :=
  let (low, mem) := bus.mem_readb_phys addr mem
  let (high, mem) := bus.mem_readb_phys (addr + 1) mem
  (low.setWidth 16 ||| high.setWidth 16 <<< 8, mem)

/-- `_dma_write`. -/
def dma_write (bus : Bus Mem) (addr : BitVec 32) (val : BitVec 8) (mem : Mem) : Mem :=
  bus.mem_writeb_phys addr val mem

/-- `_dma_writew`. -/
def dma_writew (bus : Bus Mem) (addr : BitVec 32) (val : BitVec 16) (mem : Mem) : Mem :=
  dma_write bus (addr + 1) ((val >>> 8).setWidth 8) (dma_write bus addr (val.setWidth 8) mem)

/-- The unit that a read moves. -/
def readUnit (bus : Bus Mem) (size : Bool) (addr : BitVec 32) (mem : Mem) : BitVec 16 × Mem :=
  if !size then dma_read bus addr mem else dma_readw bus addr mem

/-- The unit that a write moves. -/
def writeUnit (bus : Bus Mem) (size : Bool) (addr : BitVec 32) (val : BitVec 16) (mem : Mem) :
    Mem :=
  if !size then dma_write bus addr (val.setWidth 8) mem else dma_writew bus addr val mem

/-! ## Address and count -/

/-- The next address of a channel, up or down, in bytes or words. -/
def nextAddress (dma_mask : BitVec 32) (c : Dma_t) : BitVec 32 :=
  if !c.size then
    if c.mode &&& 0x20 ≠ 0 then
      (c.ac &&& 0xffff0000#32 &&& dma_mask) ||| ((c.ac - 1) &&& 0xffff#32)
    else (c.ac &&& 0xffff0000#32 &&& dma_mask) ||| ((c.ac + 1) &&& 0xffff#32)
  else
    if c.mode &&& 0x20 ≠ 0 then
      (c.ac &&& 0xfffe0000#32 &&& dma_mask) ||| ((c.ac - 2) &&& 0x1ffff#32)
    else (c.ac &&& 0xfffe0000#32 &&& dma_mask) ||| ((c.ac + 2) &&& 0x1ffff#32)

/-- The address moves on, once the unit has. -/
def moveOn (channel : Nat) (mem : Mem) (s : State Mem) : State Mem :=
  let c := s.dma channel
  { onChannel channel (fun c => { c with ac := nextAddress s.dma_mask c }) s with
    mem := mem
    moved := s.moved ++ [c.ac] }

/-- The count moves on. Below 0 it is the terminal count. -/
def countTransfer (channel : Nat) (s : State Mem) : Bool × State Mem :=
  let s := onChannel channel (fun c => { c with cc := c.cc - 1 }) s
  let c := s.dma channel
  if c.cc < 0 then
    let s :=
      if c.mode &&& 0x10 ≠ 0 then
        onChannel channel (fun c => { c with cc := c.cb.toNat, ac := c.ab }) s
      else { s with dma_m := s.dma_m ||| bit channel }
    (true, { s with dma_stat := s.dma_stat ||| bit channel })
  else (false, s)

/-! ## Transfers -/

/-- The tests that start every call. -/
def refused (channel : Nat) (s : State Mem) : Bool :=
  (if channel < 4 then s.dma_command 0 &&& 0x04 ≠ 0 else s.dma_command 1 &&& 0x04 ≠ 0) ||
    s.dma_e &&& bit channel = 0 || (s.dma_m &&& bit channel ≠ 0 && !s.dma_req_is_soft)

def pending (channel : Nat) (s : State Mem) : Bool := s.dma_stat_adv_pend &&& bit channel ≠ 0

def dma_channel_advance_legacy (channel : Nat) (s : State Mem) : Bool × State Mem :=
  if pending channel s then
    let (tc, s) := countTransfer channel s
    (tc, { s with dma_stat_adv_pend := s.dma_stat_adv_pend &&& ~~~bit channel })
  else (false, s)

/-- What a read does to the address and to the memory. -/
def readTransfer (bus : Bus Mem) (channel : Nat) (s : State Mem) : BitVec 16 × State Mem :=
  let c := s.dma channel
  let (temp, mem) := readUnit bus c.size c.ac s.mem
  let s := moveOn channel mem s
  (temp, { s with dma_stat_rq := s.dma_stat_rq ||| bit channel })

/-- The count is left for `dma_channel_advance_legacy`. -/
def dma_channel_read_only_legacy (bus : Bus Mem) (channel : Nat) (s : State Mem) :
    BitVec 32 × State Mem :=
  if refused channel s then (DMA_NODATA, s)
  else if (s.dma channel).mode &&& 0xC ≠ 8 then (DMA_NODATA, s)
  else
    let (_, s) := dma_channel_advance_legacy channel s
    let (temp, s) := readTransfer bus channel s
    (temp.setWidth 32, { s with dma_stat_adv_pend := s.dma_stat_adv_pend ||| bit channel })

def dma_channel_read_legacy (bus : Bus Mem) (channel : Nat) (s : State Mem) :
    BitVec 32 × State Mem :=
  if refused channel s then (DMA_NODATA, s)
  else if (s.dma channel).mode &&& 0xC ≠ 8 then (DMA_NODATA, s)
  else
    let s := if pending channel s then (dma_channel_advance_legacy channel s).2 else s
    let (temp, s) := readTransfer bus channel s
    let (tc, s) := countTransfer channel s
    (if tc then temp.setWidth 32 ||| DMA_OVER else temp.setWidth 32, s)

def dma_channel_write_legacy (bus : Bus Mem) (channel : Nat) (val : BitVec 16) (s : State Mem) :
    BitVec 32 × State Mem :=
  if refused channel s then (DMA_NODATA, s)
  else
    let c := s.dma channel
    let type := c.mode &&& 0x0c
    if type ≠ 0x04 ∧ type ≠ 0x00 then (DMA_NODATA, s)
    else
      let mem := if type = 0x04 then writeUnit bus c.size c.ac val s.mem else s.mem
      let s := moveOn channel mem s
      let s :=
        { s with
          dma_stat_rq := s.dma_stat_rq ||| bit channel
          dma_stat_adv_pend := s.dma_stat_adv_pend &&& ~~~bit channel }
      let (_, s) := countTransfer channel s
      (if s.dma_m &&& bit channel ≠ 0 then DMA_OVER else 0, s)

/-! ## Registers of `dma_write_legacy` -/

/-- Cases 0, 2, 4 and 6: one byte of the address. -/
def addressWrite (channel : Nat) (val : BitVec 8) (s : State Mem) : State Mem :=
  let s := { s with dma_wp := !s.dma_wp }
  onChannel channel
    (fun c =>
      let ab :=
        if s.dma_wp then (c.ab &&& 0xffffff00#32 &&& s.dma_mask) ||| val.setWidth 32
        else (c.ab &&& 0xffff00ff#32 &&& s.dma_mask) ||| val.setWidth 32 <<< 8
      { c with ab := ab, ac := ab })
    s

/-- Cases 1, 3, 5 and 7: one byte of the count. -/
def countWrite (channel : Nat) (val : BitVec 8) (s : State Mem) : State Mem :=
  let s := { s with dma_wp := !s.dma_wp }
  onChannel channel
    (fun c =>
      let cb :=
        if s.dma_wp then c.cb &&& 0xff00#16 ||| val.setWidth 16
        else c.cb &&& 0x00ff#16 ||| val.setWidth 16 <<< 8
      { c with cb := cb, cc := cb.toNat })
    s

/-- Case 0xb. -/
def modeWrite (val : BitVec 8) (s : State Mem) : State Mem :=
  onChannel (val &&& 3).toNat (fun c => { c with mode := val }) s

/-- Case 0xc. -/
def clearFlipFlop (s : State Mem) : State Mem := { s with dma_wp := false }

/-- `dma_reset_legacy`. -/
def dma_reset (mem : Mem) : State Mem where
  dma := fun c => ⟨0, 0, 0, 0, 0, decide (c &&& 4 ≠ 0)⟩
  dma_e := 0xff
  dma_m := 0
  dma_stat := 0
  dma_stat_rq := 0
  dma_stat_adv_pend := 0
  dma_command := fun _ => 0
  dma_wp := false
  dma_req_is_soft := false
  dma_mask := 0x00ffffff
  mem := mem
  moved := []

end blumach.dma
