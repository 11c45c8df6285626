-- The 8237 of `dma.c` with what the PS/2 machines and the advanced path add to it: the calls of
-- one unit, scatter/gather, and the blocks that software asks for.
import BluMach.Dma
import BluMach.CountedLoop

namespace blumach.dma.legacy

variable {Mem : Type}

/-! ## State -/

/-- `dma_t`, less the pages and what only `dma_ps2_run` reads. -/
structure Dma_t where
  mode : BitVec 8
  sg_command : BitVec 8
  sg_status : BitVec 8
  cb : BitVec 16
  transfer_mode : BitVec 16
  ptr : BitVec 32
  ptr_cur : BitVec 32
  addr : BitVec 32
  ab : BitVec 32
  ac : BitVec 32
  cc : Int
  /-- The channel moves words. -/
  size : Bool
  count : Nat
  eot : Bool

set_option linter.dupNamespace false in
structure State (Mem : Type) where
  dma : Nat → Dma_t
  dma_e : BitVec 8
  dma_m : BitVec 8
  dma_stat : BitVec 8
  dma_stat_rq : BitVec 8
  dma_stat_adv_pend : BitVec 8
  dma_command : Nat → BitVec 8
  dma_req_is_soft : Bool
  dma_mask : BitVec 32
  is_ps2 : Bool
  dma_advanced : Bool
  dma_buffer : BitVec 16 → BitVec 8
  dma16_buffer : BitVec 16 → BitVec 16
  mem : Mem
  /-- The address register at each unit so far, of the units that only verify too. -/
  moved : List (BitVec 32)
  /-- The bytes that scatter/gather has moved so far. -/
  gathered : List (BitVec 32)
  /-- The calls `picint(1 << 13)` so far. -/
  picints : Nat

/-- Physical memory, behind which a device can be. What is read and written is given as C does,
by a pointer to bytes. -/
structure Bus (Mem : Type) where
  mem_readb_phys : BitVec 32 → Mem → BitVec 8 × Mem
  mem_writeb_phys : BitVec 32 → BitVec 8 → Mem → Mem
  mem_read_phys : BitVec 32 → Nat → Mem → (Nat → BitVec 8) × Mem
  mem_write_phys : (Nat → BitVec 8) → BitVec 32 → Nat → Mem → Mem

def onChannel (channel : Nat) (f : Dma_t → Dma_t) (s : State Mem) : State Mem :=
  { s with dma := Function.update s.dma channel (f (s.dma channel)) }

@[simp] theorem onChannel_self (channel : Nat) (f : Dma_t → Dma_t) (s : State Mem) :
    (onChannel channel f s).dma channel = f (s.dma channel) := Function.update_self ..

/-- `dma_transfer_size`. -/
def dma_transfer_size (dev : Dma_t) : BitVec 32 := (dev.transfer_mode &&& 0xff#16).setWidth 32

/-! ## The page of the bus master -/

/-- The bytes of a pointer from an offset on. -/
def offset (data : Nat → BitVec 8) (i : Nat) : Nat → BitVec 8 := fun k => data (i + k)

/-- `len` bytes stored from an offset on. -/
def store (data : Nat → BitVec 8) (i len : Nat) (src : Nat → BitVec 8) : Nat → BitVec 8 :=
  fun k => if i ≤ k ∧ k < i + len then src (k - i) else data k

/-- The loop of `dma_bm_read` over the pieces of the divisible block. -/
def bmReadPieces (bus : Bus Mem) (addr : BitVec 32) (TransferSize : Nat) :
    Nat → Nat → (Nat → BitVec 8) → Mem → (Nat → BitVec 8) × Mem
  | 0, _, data, mem => (data, mem)
  | pieces + 1, i, data, mem =>
    let (piece, mem) := bus.mem_read_phys (addr + BitVec.ofNat 32 i) TransferSize mem
    bmReadPieces bus addr TransferSize pieces (i + TransferSize) (store data i TransferSize piece)
      mem

def dma_bm_read (bus : Bus Mem) (addr : BitVec 32) (data : Nat → BitVec 8) (TotalSize : BitVec 32)
    (TransferSize : BitVec 32) (mem : Mem) : (Nat → BitVec 8) × Mem :=
  let size := TransferSize.toNat
  let n := (TotalSize &&& ~~~(TransferSize - 1)).toNat
  let n2 := (TotalSize - BitVec.ofNat 32 n).toNat
  let (data, mem) := bmReadPieces bus addr size ((n + size - 1) / size) 0 data mem
  if n2 ≠ 0 then
    let (bytes, mem) := bus.mem_read_phys (addr + BitVec.ofNat 32 n) size mem
    (store data n n2 bytes, mem)
  else (data, mem)

/-- The loop of `dma_bm_write`. -/
def bmWritePieces (bus : Bus Mem) (addr : BitVec 32) (TransferSize : Nat) (data : Nat → BitVec 8) :
    Nat → Nat → Mem → Mem
  | 0, _, mem => mem
  | pieces + 1, i, mem =>
    bmWritePieces bus addr TransferSize data pieces (i + TransferSize)
      (bus.mem_write_phys (offset data i) (addr + BitVec.ofNat 32 i) TransferSize mem)

def dma_bm_write (bus : Bus Mem) (addr : BitVec 32) (data : Nat → BitVec 8)
    (TotalSize : BitVec 32) (TransferSize : BitVec 32) (mem : Mem) : Mem :=
  let size := TransferSize.toNat
  let n := (TotalSize &&& ~~~(TransferSize - 1)).toNat
  let n2 := (TotalSize - BitVec.ofNat 32 n).toNat
  let mem := bmWritePieces bus addr size data ((n + size - 1) / size) 0 mem
  if n2 ≠ 0 then
    let (bytes, mem) := bus.mem_read_phys (addr + BitVec.ofNat 32 n) size mem
    bus.mem_write_phys (store bytes 0 n2 (offset data n)) (addr + BitVec.ofNat 32 n) size mem
  else mem

/-! ## Scatter/gather -/

/-- A dword of four bytes, the low one first. -/
def dword (data : Nat → BitVec 8) : BitVec 32 := data 3 ++ data 2 ++ data 1 ++ data 0

/-- `dma_sg_next_addr`. -/
def nextDescriptor (dma_mask : BitVec 32) (addr count : BitVec 32) (dev : Dma_t) : Dma_t :=
  let eot := count.msb
  let count := count &&& 0xfffe#32
  let addr := if dma_transfer_size dev = 2 then addr &&& 0xfffffffe#32 else addr
  { dev with
    addr := addr
    eot := eot
    cb := count.setWidth 16
    cc := count.toNat
    count := if count.toNat = 0 then 65536 else count.toNat
    ab := addr &&& dma_mask
    ac := addr &&& dma_mask
    ptr_cur := dev.ptr_cur + 8 }

def dma_sg_next_addr (bus : Bus Mem) (channel : Nat) (s : State Mem) : State Mem :=
  let dev := s.dma channel
  let ts := dma_transfer_size dev
  let (addr, mem) := dma_bm_read bus dev.ptr_cur (fun _ => 0) 4 ts s.mem
  let (count, mem) := dma_bm_read bus (dev.ptr_cur + 4) (fun _ => 0) 4 ts mem
  { onChannel channel (nextDescriptor s.dma_mask (dword addr) (dword count)) s with mem := mem }

/-- The bytes of a transfer of the block. -/
def sgMove (bus : Bus Mem) (out : Bool) (channel buffer_pos len : Nat)
    (r : (Nat → BitVec 8) × State Mem) : (Nat → BitVec 8) × State Mem :=
  let (data, s) := r
  let dev := s.dma channel
  let gathered := s.gathered ++ (List.range len).map (dev.addr + BitVec.ofNat 32 ·)
  if out then
    let (bytes, mem) :=
      dma_bm_read bus dev.addr (offset data buffer_pos) (BitVec.ofNat 32 len) 4 s.mem
    (store data buffer_pos len bytes, { s with mem := mem, gathered := gathered })
  else
    let mem := dma_bm_write bus dev.addr (offset data buffer_pos) (BitVec.ofNat 32 len) 4 s.mem
    (data, { s with mem := mem, gathered := gathered })

/-- The loop of `dma_sg`, for at most so many turns. -/
def sgLoop (bus : Bus Mem) (out : Bool) (channel : Nat) :
    Nat → Nat → Nat → (Nat → BitVec 8) × State Mem → BitVec 8 × (Nat → BitVec 8) × State Mem
  | 0, _, _, r => (0, r)
  | turns + 1, transfer_length, buffer_pos, r =>
    let dev := r.2.dma channel
    if dev.count ≤ transfer_length then
      let r := sgMove bus out channel buffer_pos dev.count r
      let transfer_length := transfer_length - dev.count
      if transfer_length = 0 ∧ ¬ dev.eot then (1, r)
      else if transfer_length ≠ 0 ∧ dev.eot then (4, r)
      else if dev.eot then (5, r)
      else
        sgLoop bus out channel turns transfer_length (buffer_pos + dev.count)
          (r.1, dma_sg_next_addr bus channel r.2)
    else
      let (data, s) := sgMove bus out channel buffer_pos transfer_length r
      let s :=
        onChannel channel
          (fun dev =>
            { dev with
              addr := dev.addr + BitVec.ofNat 32 transfer_length
              count := dev.count - transfer_length })
          s
      (1, data, s)

/-- No descriptor has a count of 0, so that each turn but the first takes off the length. -/
def dma_sg (bus : Bus Mem) (data : Nat → BitVec 8) (transfer_length : Nat) (out : Bool)
    (channel : Nat) (s : State Mem) : BitVec 8 × (Nat → BitVec 8) × State Mem :=
  if (s.dma channel).sg_status &&& 1 = 0 then (2, data, s)
  else sgLoop bus out channel (transfer_length + 2) transfer_length 0 (data, s)

/-! ## Memory -/

def sgStatus (result : BitVec 8) (dev : Dma_t) : Dma_t :=
  { dev with sg_status := (dev.sg_status &&& 0x0f#8) ||| result <<< 4 }

/-- The advanced part of `_dma_read` and `_dma_readw`. -/
def readAdvanced (bus : Bus Mem) (channel : Nat) (addr : BitVec 32) (len : Nat) (s : State Mem) :
    (Nat → BitVec 8) × State Mem :=
  if (s.dma channel).sg_status &&& 1 ≠ 0 then
    let (result, temp, s) := dma_sg bus (fun _ => 0) len true channel s
    (temp, onChannel channel (sgStatus result) s)
  else
    let (temp, mem) :=
      dma_bm_read bus addr (fun _ => 0) (BitVec.ofNat 32 len) (dma_transfer_size (s.dma channel))
        s.mem
    (temp, { s with mem := mem })

/-- The advanced part of `_dma_write` and `_dma_writew`. -/
def writeAdvanced (bus : Bus Mem) (channel : Nat) (addr : BitVec 32) (data : Nat → BitVec 8)
    (len : Nat) (s : State Mem) : State Mem :=
  if (s.dma channel).sg_status &&& 1 ≠ 0 then
    let (result, _, s) := dma_sg bus data len false channel s
    onChannel channel (sgStatus result) s
  else
    { s with
      mem :=
        dma_bm_write bus addr data (BitVec.ofNat 32 len) (dma_transfer_size (s.dma channel))
          s.mem }

/-- `_dma_read`. -/
def dma_read (bus : Bus Mem) (channel : Nat) (addr : BitVec 32) (s : State Mem) :
    BitVec 8 × State Mem :=
  if s.dma_advanced then
    let (temp, s) := readAdvanced bus channel addr 1 s
    (temp 0, s)
  else
    let (temp, mem) := bus.mem_readb_phys addr s.mem
    (temp, { s with mem := mem })

/-- `_dma_readw`. -/
def dma_readw (bus : Bus Mem) (channel : Nat) (addr : BitVec 32) (s : State Mem) :
    BitVec 16 × State Mem :=
  if s.dma_advanced then
    let (temp, s) := readAdvanced bus channel addr 2 s
    (temp 1 ++ temp 0, s)
  else
    let (low, s) := dma_read bus channel addr s
    let (high, s) := dma_read bus channel (addr + 1) s
    (low.setWidth 16 ||| high.setWidth 16 <<< 8, s)

/-- `_dma_write`. -/
def dma_write (bus : Bus Mem) (channel : Nat) (addr : BitVec 32) (val : BitVec 8)
    (s : State Mem) : State Mem :=
  if s.dma_advanced then writeAdvanced bus channel addr (fun _ => val) 1 s
  else { s with mem := bus.mem_writeb_phys addr val s.mem }

/-- `_dma_writew`. -/
def dma_writew (bus : Bus Mem) (channel : Nat) (addr : BitVec 32) (val : BitVec 16)
    (s : State Mem) : State Mem :=
  if s.dma_advanced then
    writeAdvanced bus channel addr
      (fun k => if k = 0 then val.setWidth 8 else (val >>> 8).setWidth 8) 2 s
  else
    dma_write bus channel (addr + 1) ((val >>> 8).setWidth 8)
      (dma_write bus channel addr (val.setWidth 8) s)

/-! ## Address and count -/

def dma_retreat (dma_mask : BitVec 32) (c : Dma_t) : BitVec 32 :=
  let as := (c.transfer_mode >>> 8).setWidth 32
  if c.sg_status &&& 1 ≠ 0 then (c.ac - as) &&& dma_mask
  else if as = 2 then (c.ac &&& 0xfffe0000#32 &&& dma_mask) ||| ((c.ac - as) &&& 0x1ffff#32)
  else (c.ac &&& 0xffff0000#32 &&& dma_mask) ||| ((c.ac - as) &&& 0xffff#32)

def dma_advance (dma_mask : BitVec 32) (c : Dma_t) : BitVec 32 :=
  let as := (c.transfer_mode >>> 8).setWidth 32
  if c.sg_status &&& 1 ≠ 0 then (c.ac + as) &&& dma_mask
  else if as = 2 then (c.ac &&& 0xfffe0000#32 &&& dma_mask) ||| ((c.ac + as) &&& 0x1ffff#32)
  else (c.ac &&& 0xffff0000#32 &&& dma_mask) ||| ((c.ac + as) &&& 0xffff#32)

/-- The next address of a channel, up or down, in bytes or words. -/
def nextAddress (s : State Mem) (c : Dma_t) : BitVec 32 :=
  if !c.size then
    if c.mode &&& 0x20 ≠ 0 then
      if s.is_ps2 then c.ac - 1
      else if s.dma_advanced then dma_retreat s.dma_mask c
      else (c.ac &&& 0xffff0000#32 &&& s.dma_mask) ||| ((c.ac - 1) &&& 0xffff#32)
    else
      if s.is_ps2 then c.ac + 1
      else if s.dma_advanced then dma_advance s.dma_mask c
      else (c.ac &&& 0xffff0000#32 &&& s.dma_mask) ||| ((c.ac + 1) &&& 0xffff#32)
  else
    if c.mode &&& 0x20 ≠ 0 then
      if s.is_ps2 then c.ac - 2
      else if s.dma_advanced then dma_retreat s.dma_mask c
      else (c.ac &&& 0xfffe0000#32 &&& s.dma_mask) ||| ((c.ac - 2) &&& 0x1ffff#32)
    else
      if s.is_ps2 then c.ac + 2
      else if s.dma_advanced then dma_advance s.dma_mask c
      else (c.ac &&& 0xfffe0000#32 &&& s.dma_mask) ||| ((c.ac + 2) &&& 0x1ffff#32)

/-- The address moves on, once the unit has. -/
def moveOn (channel : Nat) (s : State Mem) : State Mem :=
  { onChannel channel (fun c => { c with ac := nextAddress s c }) s with
    moved := s.moved ++ [(s.dma channel).ac]
    dma_stat_rq := s.dma_stat_rq ||| bit channel }

/-- A block of scatter/gather is to follow, where the status does not tell that it was the
last. -/
def blockFollows (channel : Nat) (s : State Mem) : Bool :=
  s.dma_advanced && (s.dma channel).sg_status &&& 1 ≠ 0 && (s.dma channel).sg_status &&& 6 = 0

/-- The count moves on. Below 0 it is the next block or the terminal count. -/
def countTransfer (bus : Bus Mem) (channel : Nat) (s : State Mem) : Bool × State Mem :=
  let s := onChannel channel (fun c => { c with cc := c.cc - 1 }) s
  let c := s.dma channel
  if c.cc < 0 then
    if blockFollows channel s then (false, dma_sg_next_addr bus channel s)
    else
      let s :=
        if c.mode &&& 0x10 ≠ 0 then
          onChannel channel (fun c => { c with cc := c.cb.toNat, ac := c.ab }) s
        else { s with dma_m := s.dma_m ||| bit channel }
      (true, { s with dma_stat := s.dma_stat ||| bit channel })
  else (false, s)

/-- The interrupt of scatter/gather at its terminal count. -/
def terminalInterrupt (channel : Nat) (s : State Mem) : State Mem :=
  let c := s.dma channel
  if s.dma_advanced ∧ c.sg_status &&& 1 ≠ 0 ∧ c.sg_command &&& 0xc0 = 0x40 then
    { onChannel channel (fun c => { c with sg_status := c.sg_status ||| 8 }) s with
      picints := s.picints + 1 }
  else s

/-! ## Transfers -/

/-- The tests that start every call. -/
def refused (channel : Nat) (s : State Mem) : Bool :=
  (if channel < 4 then s.dma_command 0 &&& 0x04 ≠ 0 else s.dma_command 1 &&& 0x04 ≠ 0) ||
    s.dma_e &&& bit channel = 0 || (s.dma_m &&& bit channel ≠ 0 && !s.dma_req_is_soft)

def pending (channel : Nat) (s : State Mem) : Bool := s.dma_stat_adv_pend &&& bit channel ≠ 0

def dma_channel_advance_legacy (bus : Bus Mem) (channel : Nat) (s : State Mem) :
    Bool × State Mem :=
  if pending channel s then
    let (tc, s) := countTransfer bus channel s
    let s := if tc then terminalInterrupt channel s else s
    (tc, { s with dma_stat_adv_pend := s.dma_stat_adv_pend &&& ~~~bit channel })
  else (false, s)

/-- The unit that a read moves. -/
def readUnit (bus : Bus Mem) (channel : Nat) (s : State Mem) : BitVec 16 × State Mem :=
  let c := s.dma channel
  if !c.size then
    let (temp, s) := dma_read bus channel c.ac s
    (temp.setWidth 16, s)
  else dma_readw bus channel c.ac s

/-- The unit that a write moves. -/
def writeUnit (bus : Bus Mem) (channel : Nat) (val : BitVec 16) (s : State Mem) : State Mem :=
  let c := s.dma channel
  if !c.size then dma_write bus channel c.ac (val.setWidth 8) s
  else dma_writew bus channel c.ac val s

def dma_channel_read_legacy (bus : Bus Mem) (channel : Nat) (s : State Mem) :
    BitVec 32 × State Mem :=
  if refused channel s then (DMA_NODATA, s)
  else if (s.dma channel).mode &&& 0xC ≠ 8 then (DMA_NODATA, s)
  else
    let s := if pending channel s then (dma_channel_advance_legacy bus channel s).2 else s
    let (temp, s) := readUnit bus channel s
    let s := moveOn channel s
    let (tc, s) := countTransfer bus channel s
    if tc then (temp.setWidth 32 ||| DMA_OVER, terminalInterrupt channel s)
    else (temp.setWidth 32, s)

def dma_channel_write_legacy (bus : Bus Mem) (channel : Nat) (val : BitVec 16) (s : State Mem) :
    BitVec 32 × State Mem :=
  if refused channel s then (DMA_NODATA, s)
  else
    let type := (s.dma channel).mode &&& 0x0c
    if type ≠ 0x04 ∧ type ≠ 0x00 then (DMA_NODATA, s)
    else
      let s := if type = 0x04 then writeUnit bus channel val s else s
      let s := moveOn channel s
      let s := { s with dma_stat_adv_pend := s.dma_stat_adv_pend &&& ~~~bit channel }
      let (_, s) := countTransfer bus channel s
      if s.dma_m &&& bit channel ≠ 0 then (DMA_OVER, terminalInterrupt channel s) else (0, s)

/-! ## The blocks that software asks for -/

/-- A turn of the loop of `dma_block_transfer`, beside the buffer indices that the calls have
used so far. -/
def blockTurn (bus : Bus Mem) (channel : Nat) (bit16 : Bool) (i : BitVec 16)
    (r : State Mem × List (BitVec 16)) : State Mem × List (BitVec 16) :=
  let (s, used) := r
  let mode := (s.dma channel).mode
  if mode &&& 0x8c = 0x84 then
    let val := if bit16 then s.dma16_buffer i else (s.dma_buffer i).setWidth 16
    let (_, s) := dma_channel_write_legacy bus channel val s
    (s, used ++ [i])
  else if mode &&& 0x8c = 0x88 then
    let (temp, s) := dma_channel_read_legacy bus channel s
    let s :=
      if bit16 then
        { s with dma16_buffer := Function.update s.dma16_buffer i (temp.setWidth 16) }
      else { s with dma_buffer := Function.update s.dma_buffer i (temp.setWidth 8) }
    (s, used ++ [i])
  else (s, used)

/-- `cb`, the bound of the loop, which is read anew for each test. -/
def baseCount (channel : Nat) (s : State Mem) : BitVec 16 := (s.dma channel).cb

/-- `none` where the loop is not done after so many tests. -/
def dma_block_transfer (bus : Bus Mem) (channel tests : Nat) (s : State Mem) :
    Option (State Mem × List (BitVec 16)) :=
  let bit16 :=
    if s.dma_advanced then decide (dma_transfer_size (s.dma channel) = 2)
    else decide (4 ≤ channel)
  (counted_loop.run (fun r => baseCount channel r.1) (blockTurn bus channel bit16) tests 0
      ({ s with dma_req_is_soft := true }, [])).map
    fun (s, used) => ({ s with dma_req_is_soft := false }, used)

/-! ## The command of scatter/gather -/

/-- Port 0 of `dma_sg_write`. -/
def dma_sg_command (bus : Bus Mem) (channel : Nat) (val : BitVec 8) (s : State Mem) : State Mem :=
  let command := (s.dma channel).sg_command
  let s :=
    if val &&& 1 ≠ 0 ∧ command &&& 1 = 0 then
      onChannel channel
        (fun dev => { dev with sg_status := (dev.sg_status &&& 0xf7#8) ||| 0x01#8 })
        (dma_sg_next_addr bus channel
          (onChannel channel (fun dev => { dev with ptr_cur := dev.ptr }) s))
    else s
  let s :=
    if val &&& 1 = 0 ∧ command &&& 1 ≠ 0 then
      onChannel channel (fun dev => { dev with sg_status := dev.sg_status &&& ~~~0x81#8 }) s
    else s
  onChannel channel (fun dev => { dev with sg_command := val }) s

end blumach.dma.legacy
