-- Lists of scatter/gather: what a list asks of the calls, and why no run of calls gives it. The
-- calls look for the end of the list in bits of the status that nothing sets.
import BluMach.DmaLegacyLaws
import BluMach.DmaBlocks

namespace blumach.dma.legacy

variable {Mem : Type} (bus : Bus Mem) {channel n : Nat} {s t : State Mem}

/-! ## Lists in memory -/

/-- A block of memory. Its length is even, and 65536 at most. -/
structure Block where
  addr : BitVec 32
  len : Nat
  pos : 0 < len
  le : len ≤ 65536
  even : len % 2 = 0

/-- The bytes of the blocks, in order. -/
def bytesOf (blocks : List Block) : List (BitVec 32) :=
  blocks.flatMap fun b => (List.range b.len).map (b.addr + BitVec.ofNat 32 ·)

/-- A dword of the list, as `dma_sg_next_addr` reads it. -/
def listWord (ts : BitVec 32) (mem : Mem) (ptr : BitVec 32) : BitVec 32 :=
  dword (dma_bm_read bus ptr (fun _ => 0) 4 ts mem).1

/-- The descriptors of the blocks stand in memory from a pointer on, and the last one has the
mark of the end. A length of 65536 is a 0. -/
def InMemory (ts : BitVec 32) (mem : Mem) : BitVec 32 → List Block → Prop
  | _, [] => False
  | ptr, b :: blocks =>
    listWord bus ts mem ptr = b.addr ∧
      (listWord bus ts mem (ptr + 4) &&& 0xfffe#32).toNat = b.len % 65536 ∧
      (listWord bus ts mem (ptr + 4)).msb = blocks.isEmpty ∧
      (blocks = [] ∨ InMemory ts mem (ptr + 8) blocks)

/-! ## Calls -/

inductive Call
  | read
  | write (val : BitVec 16)

def call (channel : Nat) : Call → State Mem → BitVec 32 × State Mem
  | .read, s => dma_channel_read_legacy bus channel s
  | .write val, s => dma_channel_write_legacy bus channel val s

def calls (channel : Nat) : List Call → State Mem → List (BitVec 32) × State Mem
  | [], s => ([], s)
  | c :: cs, s =>
    let (r, s) := call bus channel c s
    let (rs, s) := calls channel cs s
    (r :: rs, s)

/-- The call has the direction of the channel. -/
def inDirection (channel : Nat) (s : State Mem) : Call → Bool
  | .read => (s.dma channel).mode &&& 0xC = 8
  | .write _ => (s.dma channel).mode &&& 0x0c = 4

/-- The terminal count, in the result of a call that has one. -/
def terminal (r : BitVec 32) : Bool := r &&& DMA_OVER ≠ 0

/-- How many of the calls move a byte. -/
def moving (channel : Nat) (s : State Mem) (cs : List Call) : Nat :=
  (cs.filter (inDirection channel s)).length

/-- What a list asks: as long as its bytes last, each call in the direction of the channel moves
the next of them, and the terminal count comes with the last one and with no other. -/
def MovesOnce (channel : Nat) (blocks : List Block) (s : State Mem) : Prop :=
  ∀ cs, moving channel s cs ≤ (bytesOf blocks).length →
    (calls bus channel cs s).2.gathered =
        s.gathered ++ (bytesOf blocks).take (moving channel s cs) ∧
      ((calls bus channel cs s).1.filter (· ≠ DMA_NODATA)).map terminal =
        (List.range (moving channel s cs)).map fun j => decide (j + 1 = (bytesOf blocks).length)

/-- An 8-bit channel that is programmed for one direction and for a list, and that is not
masked. Its status is one that the reset and the commands leave: bits 1 and 2 are clear. -/
structure Ready (channel : Nat) (blocks : List Block) (s : State Mem) : Prop where
  advanced : s.dma_advanced = true
  command : (s.dma channel).sg_command &&& 1 = 0
  status : (s.dma channel).sg_status &&& 6 = 0
  unmasked : s.dma_m &&& bit channel = 0
  controller : (if channel < 4 then s.dma_command 0 else s.dma_command 1) &&& 0x04 = 0
  enable : s.dma_e &&& bit channel ≠ 0
  bytes : (s.dma channel).size = false
  direction : (s.dma channel).mode &&& 0xC = 8 ∨ (s.dma channel).mode &&& 0xC = 4
  list : InMemory bus (dma_transfer_size (s.dma channel)) s.mem (s.dma channel).ptr blocks

/-! ## The terminal count of scatter/gather -/

/-- What the calls leave of a channel that scatter/gather has. -/
structure Gathering (channel : Nat) (s : State Mem) : Prop where
  follows : blockFollows channel s = true
  unmasked : s.dma_m &&& bit channel = 0
  direction : (s.dma channel).mode &&& 0xC = 8 ∨ (s.dma channel).mode &&& 0xC = 4

theorem Gathering.units (h : Gathering channel s) (hunits : Units channel n s t) :
    Gathering channel t where
  follows := hunits.blockFollows.trans h.follows
  unmasked := by rw [hunits.mask h.follows, h.unmasked]
  direction := by rw [hunits.mode]; exact h.direction

/-- Where a block is to follow, the count has no end. -/
theorem count_of_follows (hfollows : blockFollows channel s = true) :
    (countTransfer bus channel s).1 = false := by
  have hcount : Units channel 0 s (onChannel channel (fun c => { c with cc := c.cc - 1 }) s) :=
    units_onChannel rfl rfl rfl
  have hthen := hcount.blockFollows.trans hfollows
  unfold countTransfer
  dsimp only
  generalize onChannel channel (fun c => { c with cc := c.cc - 1 }) s = t at hthen ⊢
  split_ifs
  · rfl
  · rfl

theorem terminal_word (x : BitVec 16) : terminal (x.setWidth 32) = false := by
  unfold terminal DMA_OVER
  rw [decide_eq_false_iff_not, not_not]
  apply BitVec.eq_of_getLsbD_eq
  intro i hi
  interval_cases i <;> simp

/-- A read of a channel with blocks to follow tells no terminal count. -/
theorem read_quiet (h : Gathering channel s) :
    ((dma_channel_read_legacy bus channel s).1 = DMA_NODATA ∨
        terminal (dma_channel_read_legacy bus channel s).1 = false) ∧
      Gathering channel (dma_channel_read_legacy bus channel s).2 := by
  by_cases hgo : refused channel s = true
  · rw [read_refused bus hgo]
    exact ⟨Or.inl rfl, h⟩
  · have hgo := Bool.eq_false_of_not_eq_true hgo
    by_cases hmode : (s.dma channel).mode &&& 0xC = 8
    · obtain ⟨temp, t, hunits, hread⟩ := read_spec bus hgo hmode
      refine ⟨Or.inr ?_, h.units (units_read bus hgo hmode)⟩
      rw [hread, count_of_follows bus (h.units hunits).follows, if_neg Bool.false_ne_true]
      exact terminal_word temp
    · unfold dma_channel_read_legacy
      rw [if_neg (by rw [hgo]; decide), if_pos hmode]
      exact ⟨Or.inl rfl, h⟩

theorem write_quiet (val : BitVec 16) (h : Gathering channel s) :
    ((dma_channel_write_legacy bus channel val s).1 = DMA_NODATA ∨
        terminal (dma_channel_write_legacy bus channel val s).1 = false) ∧
      Gathering channel (dma_channel_write_legacy bus channel val s).2 := by
  by_cases hgo : refused channel s = true
  · rw [write_refused bus val hgo]
    exact ⟨Or.inl rfl, h⟩
  · have hgo := Bool.eq_false_of_not_eq_true hgo
    by_cases hmode : (s.dma channel).mode &&& 0x0c = 4
    · obtain ⟨t, hunits, hwrite⟩ := write_spec bus val hgo hmode
      have hcounted := h.units (hunits.trans (units_count bus channel t))
      refine ⟨Or.inr ?_, h.units (units_write bus val hgo hmode)⟩
      rw [hwrite, if_neg (not_not.mpr hcounted.unmasked)]
      exact terminal_word 0
    · have hread := h.direction.resolve_right hmode
      unfold dma_channel_write_legacy
      rw [if_neg (by rw [hgo]; decide)]
      dsimp only
      rw [if_pos (by rw [hread]; decide)]
      exact ⟨Or.inl rfl, h⟩

theorem call_quiet (c : Call) (h : Gathering channel s) :
    ((call bus channel c s).1 = DMA_NODATA ∨ terminal (call bus channel c s).1 = false) ∧
      Gathering channel (call bus channel c s).2 := by
  cases c with
  | read => exact read_quiet bus h
  | write val => exact write_quiet bus val h

theorem calls_quiet (cs : List Call) (h : Gathering channel s) :
    ∀ r ∈ (calls bus channel cs s).1, r = DMA_NODATA ∨ terminal r = false := by
  induction cs generalizing s with
  | nil => exact fun r hr => absurd hr List.not_mem_nil
  | cons c cs ih =>
    obtain ⟨hcall, hthen⟩ := call_quiet bus c h
    intro r hr
    rcases List.mem_cons.mp hr with rfl | hr
    · exact hcall
    · exact ih hthen r hr

/-! ## Lists -/

theorem length_bytesOf_pos {ts ptr : BitVec 32} {mem : Mem} {blocks : List Block}
    (h : InMemory bus ts mem ptr blocks) : 0 < (bytesOf blocks).length := by
  cases blocks with
  | nil => cases h
  | cons b blocks =>
    unfold bytesOf
    rw [List.flatMap_cons, List.length_append, List.length_map, List.length_range]
    exact Nat.lt_of_lt_of_le b.pos (Nat.le_add_right _ _)

theorem started_bits {x : BitVec 8} (h : x &&& 6 = 0) :
    ((x &&& 0xf7#8) ||| 0x01#8) &&& 1 ≠ 0 ∧ ((x &&& 0xf7#8) ||| 0x01#8) &&& 6 = 0 := by
  have hsix : ((x &&& 0xf7#8) ||| 0x01#8) &&& 6 = x &&& 6 := by
    apply BitVec.eq_of_getLsbD_eq
    intro i hi
    interval_cases i <;> simp
  refine ⟨fun hone => ?_, hsix.trans h⟩
  have hbit := congrArg (fun y => BitVec.getLsbD y 0) hone
  simp at hbit

/-- The command that starts a list, where none was started. -/
theorem start_eq {val : BitVec 8} (hstart : val &&& 1 ≠ 0)
    (hcommand : (s.dma channel).sg_command &&& 1 = 0) :
    dma_sg_command bus channel val s =
      onChannel channel (fun dev => { dev with sg_command := val })
        (onChannel channel
          (fun dev => { dev with sg_status := (dev.sg_status &&& 0xf7#8) ||| 0x01#8 })
          (dma_sg_next_addr bus channel
            (onChannel channel (fun dev => { dev with ptr_cur := dev.ptr }) s))) := by
  unfold dma_sg_command
  dsimp only
  rw [if_neg (fun hstop => hstart hstop.1), if_pos ⟨hstart, hcommand⟩]

/-- The start of the list leaves the channel to scatter/gather. -/
theorem gathering_start {blocks : List Block} {val : BitVec 8} (hstart : val &&& 1 ≠ 0)
    (h : Ready bus channel blocks s) : Gathering channel (dma_sg_command bus channel val s) := by
  obtain ⟨addr, count, hnext⟩ :=
    next_spec bus channel (onChannel channel (fun dev => { dev with ptr_cur := dev.ptr }) s)
  rw [onChannel_self] at hnext
  rw [start_eq bus hstart h.command]
  obtain ⟨hon, hbits⟩ := started_bits h.status
  refine ⟨?_, h.unmasked, ?_⟩
  · unfold blockFollows
    simp only [onChannel_self, hnext]
    rw [Bool.and_eq_true_iff, Bool.and_eq_true_iff, decide_eq_true_eq, decide_eq_true_eq]
    exact ⟨⟨h.advanced, hon⟩, hbits⟩
  · simp only [onChannel_self, hnext]
    exact h.direction

/-- As many calls in the direction of the channel as a list has bytes. -/
theorem exists_calls (hdirection : (s.dma channel).mode &&& 0xC = 8 ∨
    (s.dma channel).mode &&& 0xC = 4) (n : Nat) :
    ∃ cs, moving channel s cs = n := by
  unfold moving
  rcases hdirection with hread | hwrite
  · refine ⟨List.replicate n .read, ?_⟩
    rw [List.filter_replicate_of_pos (by unfold inDirection; exact decide_eq_true hread),
      List.length_replicate]
  · refine ⟨List.replicate n (.write 0), ?_⟩
    rw [List.filter_replicate_of_pos (by unfold inDirection; exact decide_eq_true hwrite),
      List.length_replicate]

theorem not_movesOnce {blocks : List Block} (h : Gathering channel s)
    (hpos : 0 < (bytesOf blocks).length) : ¬ MovesOnce bus channel blocks s := by
  intro hmoves
  obtain ⟨cs, hcs⟩ := exists_calls h.direction (bytesOf blocks).length
  have hends := (hmoves cs (Nat.le_of_eq hcs)).2
  have hlast : true ∈ (List.range (moving channel s cs)).map
      fun j => decide (j + 1 = (bytesOf blocks).length) := by
    refine List.mem_map.mpr ⟨(bytesOf blocks).length - 1, List.mem_range.mpr ?_, decide_eq_true ?_⟩
    · rw [hcs]
      exact Nat.sub_lt hpos Nat.one_pos
    · exact Nat.sub_add_cancel hpos
  rw [← hends] at hlast
  obtain ⟨r, hr, hterminal⟩ := List.mem_map.mp hlast
  obtain ⟨hr, hdata⟩ := List.mem_filter.mp hr
  rcases calls_quiet bus cs h r hr with hnodata | hquiet
  · exact of_decide_eq_true hdata hnodata
  · rw [hquiet] at hterminal
    cases hterminal

/-- No list whatever is moved once, with the terminal count on its last byte: the status that
`dma_sg` gives at the end of the list stands four bits above the bits that the calls look at. -/
theorem no_list_is_moved_once (channel : Nat) (blocks : List Block) (val : BitVec 8)
    (s : State Mem) (hstart : val &&& 1 ≠ 0) (h : Ready bus channel blocks s) :
    ¬ MovesOnce bus channel blocks (dma_sg_command bus channel val s) :=
  not_movesOnce bus (gathering_start bus hstart h) (length_bytesOf_pos bus h.list)

/-! ## A list of one block -/

/-- A list at `0x1000` of one block, of two bytes at `0x2000`. -/
def listByte (a : BitVec 32) : BitVec 8 :=
  if a = 0x1001 then 0x20 else if a = 0x1004 then 2 else if a = 0x1007 then 0x80 else 0

def listBus : Bus Unit where
  mem_readb_phys := fun a mem => (listByte a, mem)
  mem_writeb_phys := fun _ _ mem => mem
  mem_read_phys := fun a _ mem => (fun k => listByte (a + BitVec.ofNat 32 k), mem)
  mem_write_phys := fun _ _ _ mem => mem

def listBlock : Block := ⟨0x2000, 2, by decide, by decide, by decide⟩

/-- Every channel is to read by the list. -/
def listState : State Unit where
  dma := fun _ =>
    { mode := 0x08, sg_command := 0, sg_status := 0, cb := 0, transfer_mode := 0x0101
      ptr := 0x1000, ptr_cur := 0, addr := 0, ab := 0, ac := 0, cc := 0
      size := false, count := 0, eot := false }
  dma_e := 0xff
  dma_m := 0
  dma_stat := 0
  dma_stat_rq := 0
  dma_stat_adv_pend := 0
  dma_command := fun _ => 0
  dma_req_is_soft := false
  dma_mask := 0xffffffff
  is_ps2 := false
  dma_advanced := true
  dma_buffer := fun _ => 0
  dma16_buffer := fun _ => 0
  mem := ()
  moved := []
  gathered := []
  picints := 0

theorem listReady : Ready listBus 1 [listBlock] listState where
  advanced := rfl
  command := rfl
  status := rfl
  unmasked := rfl
  controller := rfl
  enable := by decide
  bytes := rfl
  direction := Or.inl rfl
  list := ⟨by decide, by decide, by decide, Or.inl rfl⟩

theorem the_list_of_two_bytes_is_not_moved_once :
    ¬ MovesOnce listBus 1 [listBlock] (dma_sg_command listBus 1 1 listState) :=
  no_list_is_moved_once listBus 1 [listBlock] 1 listState (by decide) listReady

/-- Two reads take the two bytes, and neither of them tells of the end. -/
theorem two_reads_have_no_terminal_count :
    ¬ MovesOnce listBus 1 [listBlock] (dma_sg_command listBus 1 1 listState) := by
  intro hmoves
  have hends := (hmoves [.read, .read] (by decide)).2
  revert hends
  decide

/-- The third read takes the last byte once more. -/
example : (calls listBus 1 [.read, .read, .read] (dma_sg_command listBus 1 1 listState)).2.gathered
    = [0x2000, 0x2001, 0x2001] := by decide

end blumach.dma.legacy
