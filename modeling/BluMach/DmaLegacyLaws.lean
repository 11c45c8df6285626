-- What a call of the 8237 leaves of a channel: its mode, the bits that hold the channel back,
-- and its base count, which only scatter/gather loads.
import BluMach.DmaLegacy
import Mathlib.Tactic.IntervalCases

namespace blumach.dma.legacy

variable {Mem : Type} (bus : Bus Mem) {channel n k : Nat} {s t u : State Mem}

/-! ## What units leave -/

/-- The channel belongs to scatter/gather. -/
def gathers (channel : Nat) (s : State Mem) : Bool :=
  s.dma_advanced && (s.dma channel).sg_status &&& 1 ≠ 0

/-- What calls that move `n` units leave, and how far they change the rest. -/
structure Units (channel n : Nat) (s t : State Mem) : Prop where
  mode : (t.dma channel).mode = (s.dma channel).mode
  status : (t.dma channel).sg_status &&& 7 = (s.dma channel).sg_status &&& 7
  advanced : t.dma_advanced = s.dma_advanced
  enabled : t.dma_e = s.dma_e
  command : t.dma_command = s.dma_command
  soft : t.dma_req_is_soft = s.dma_req_is_soft
  moved : t.moved.length = s.moved.length + n
  base : (t.dma channel).cb = (s.dma channel).cb ∨
    gathers channel s = true ∧ (t.dma channel).cb ≠ 0xffff
  mask : blockFollows channel s = true → t.dma_m = s.dma_m

theorem low_bit {x y : BitVec 8} (h : x &&& 7 = y &&& 7) : x &&& 1 = y &&& 1 := by
  have hand : ∀ z : BitVec 8, z &&& 1 = (z &&& 7) &&& 1 := fun z => by rw [BitVec.and_assoc]; rfl
  rw [hand x, hand y, h]

theorem end_bits {x y : BitVec 8} (h : x &&& 7 = y &&& 7) : x &&& 6 = y &&& 6 := by
  have hand : ∀ z : BitVec 8, z &&& 6 = (z &&& 7) &&& 6 := fun z => by rw [BitVec.and_assoc]; rfl
  rw [hand x, hand y, h]

theorem Units.gathers (h : Units channel n s t) : gathers channel t = gathers channel s := by
  unfold legacy.gathers
  rw [h.advanced, low_bit h.status]

theorem Units.blockFollows (h : Units channel n s t) :
    blockFollows channel t = blockFollows channel s := by
  unfold legacy.blockFollows
  rw [h.advanced, low_bit h.status, end_bits h.status]

theorem Units.refl (channel : Nat) (s : State Mem) : Units channel 0 s s :=
  ⟨rfl, rfl, rfl, rfl, rfl, rfl, rfl, Or.inl rfl, fun _ => rfl⟩

theorem Units.trans (h : Units channel n s t) (h' : Units channel k t u) :
    Units channel (n + k) s u where
  mode := h'.mode.trans h.mode
  status := h'.status.trans h.status
  advanced := h'.advanced.trans h.advanced
  enabled := h'.enabled.trans h.enabled
  command := h'.command.trans h.command
  soft := h'.soft.trans h.soft
  moved := by rw [h'.moved, h.moved, Nat.add_assoc]
  base := by
    rcases h'.base with hsame | ⟨hgathers, hbase⟩
    · rw [hsame]
      exact h.base
    · exact Or.inr ⟨h.gathers ▸ hgathers, hbase⟩
  mask hfollows := by rw [h'.mask (h.blockFollows ▸ hfollows), h.mask hfollows]

/-- A change of the channel alone. -/
theorem units_onChannel {f : Dma_t → Dma_t}
    (hmode : (f (s.dma channel)).mode = (s.dma channel).mode)
    (hstatus : (f (s.dma channel)).sg_status &&& 7 = (s.dma channel).sg_status &&& 7)
    (hbase : (f (s.dma channel)).cb = (s.dma channel).cb) :
    Units channel 0 s (onChannel channel f s) := by
  refine ⟨?_, ?_, rfl, rfl, rfl, rfl, rfl, Or.inl ?_, fun _ => rfl⟩
  · rw [onChannel_self, hmode]
  · rw [onChannel_self, hstatus]
  · rw [onChannel_self, hbase]

/-! ## Scatter/gather -/

theorem even_ne (x : BitVec 32) : (x &&& 0xfffe#32).setWidth 16 ≠ 0xffff#16 := by
  intro h
  have hbit := congrArg (fun y => BitVec.getLsbD y 0) h
  simp at hbit

theorem next_spec (channel : Nat) (s : State Mem) :
    ∃ addr count, (dma_sg_next_addr bus channel s).dma channel =
      nextDescriptor s.dma_mask addr count (s.dma channel) :=
  ⟨_, _, Function.update_self ..⟩

theorem units_next (hgathers : gathers channel s = true) :
    Units channel 0 s (dma_sg_next_addr bus channel s) := by
  obtain ⟨addr, count, hdma⟩ := next_spec bus channel s
  refine ⟨?_, ?_, rfl, rfl, rfl, rfl, rfl, Or.inr ⟨hgathers, ?_⟩, fun _ => rfl⟩
  · rw [hdma]
    rfl
  · rw [hdma]
    rfl
  · rw [hdma]
    exact even_ne count

theorem units_sgMove (channel : Nat) (s : State Mem) (out : Bool) (pos len : Nat)
    (data : Nat → BitVec 8) :
    Units channel 0 s (sgMove bus out channel pos len (data, s)).2 := by
  unfold sgMove
  cases out
  · exact ⟨rfl, rfl, rfl, rfl, rfl, rfl, rfl, Or.inl rfl, fun _ => rfl⟩
  · exact ⟨rfl, rfl, rfl, rfl, rfl, rfl, rfl, Or.inl rfl, fun _ => rfl⟩

theorem units_sgLoop (out : Bool) (turns length pos : Nat) (data : Nat → BitVec 8)
    (hgathers : gathers channel s = true) :
    Units channel 0 s (sgLoop bus out channel turns length pos (data, s)).2.2 := by
  induction turns generalizing length pos data s with
  | zero => exact Units.refl channel s
  | succ turns ih =>
    rw [sgLoop]
    dsimp only
    by_cases hcount : (s.dma channel).count ≤ length
    · rw [if_pos hcount]
      have hmove := units_sgMove bus channel s out pos (s.dma channel).count data
      have hthen := hmove.gathers.trans hgathers
      split_ifs
      · exact hmove
      · exact hmove
      · exact hmove
      · have hnext := units_next bus hthen
        exact (hmove.trans hnext).trans (ih _ _ _ (hnext.gathers.trans hthen))
    · rw [if_neg hcount]
      have hmove := units_sgMove bus channel s out pos length data
      refine hmove.trans (@units_onChannel _ _ _ (fun dev =>
        { dev with
          addr := dev.addr + BitVec.ofNat 32 length
          count := dev.count - length }) rfl rfl rfl)

theorem units_sg (out : Bool) (length : Nat) (data : Nat → BitVec 8)
    (hgathers : gathers channel s = true) :
    Units channel 0 s (dma_sg bus data length out channel s).2.2 := by
  unfold dma_sg
  split_ifs
  · exact Units.refl channel s
  · exact units_sgLoop bus out _ _ _ data hgathers

/-! ## A unit -/

theorem sgStatus_low (result x : BitVec 8) : ((x &&& 0x0f#8) ||| result <<< 4) &&& 7 = x &&& 7 := by
  apply BitVec.eq_of_getLsbD_eq
  intro i hi
  interval_cases i <;> simp

theorem units_status (result : BitVec 8) :
    Units channel 0 s (onChannel channel (sgStatus result) s) :=
  units_onChannel rfl (sgStatus_low result _) rfl

theorem gathers_of (hadvanced : s.dma_advanced = true)
    (hstatus : (s.dma channel).sg_status &&& 1 ≠ 0) : gathers channel s = true := by
  unfold gathers
  rw [hadvanced, Bool.true_and, decide_eq_true_eq]
  exact hstatus

theorem units_readAdvanced (addr : BitVec 32) (len : Nat) (hadvanced : s.dma_advanced = true) :
    Units channel 0 s (readAdvanced bus channel addr len s).2 := by
  unfold readAdvanced
  by_cases hstatus : (s.dma channel).sg_status &&& 1 ≠ 0
  · rw [if_pos hstatus]
    exact (units_sg bus true len _ (gathers_of hadvanced hstatus)).trans (units_status _)
  · rw [if_neg hstatus]
    exact ⟨rfl, rfl, rfl, rfl, rfl, rfl, rfl, Or.inl rfl, fun _ => rfl⟩

theorem units_writeAdvanced (addr : BitVec 32) (data : Nat → BitVec 8) (len : Nat)
    (hadvanced : s.dma_advanced = true) :
    Units channel 0 s (writeAdvanced bus channel addr data len s) := by
  unfold writeAdvanced
  by_cases hstatus : (s.dma channel).sg_status &&& 1 ≠ 0
  · rw [if_pos hstatus]
    exact (units_sg bus false len data (gathers_of hadvanced hstatus)).trans (units_status _)
  · rw [if_neg hstatus]
    exact ⟨rfl, rfl, rfl, rfl, rfl, rfl, rfl, Or.inl rfl, fun _ => rfl⟩

theorem units_dma_read (addr : BitVec 32) :
    Units channel 0 s (dma_read bus channel addr s).2 := by
  unfold dma_read
  by_cases hadvanced : s.dma_advanced = true
  · rw [if_pos hadvanced]
    exact units_readAdvanced bus addr 1 hadvanced
  · rw [if_neg hadvanced]
    exact ⟨rfl, rfl, rfl, rfl, rfl, rfl, rfl, Or.inl rfl, fun _ => rfl⟩

theorem units_dma_write (addr : BitVec 32) (val : BitVec 8) :
    Units channel 0 s (dma_write bus channel addr val s) := by
  unfold dma_write
  by_cases hadvanced : s.dma_advanced = true
  · rw [if_pos hadvanced]
    exact units_writeAdvanced bus addr _ 1 hadvanced
  · rw [if_neg hadvanced]
    exact ⟨rfl, rfl, rfl, rfl, rfl, rfl, rfl, Or.inl rfl, fun _ => rfl⟩

theorem units_readUnit (channel : Nat) (s : State Mem) :
    Units channel 0 s (readUnit bus channel s).2 := by
  unfold readUnit
  dsimp only
  by_cases hsize : (!(s.dma channel).size) = true
  · rw [if_pos hsize]
    exact units_dma_read bus _
  · rw [if_neg hsize]
    unfold dma_readw
    by_cases hadvanced : s.dma_advanced = true
    · rw [if_pos hadvanced]
      exact units_readAdvanced bus _ 2 hadvanced
    · rw [if_neg hadvanced]
      exact (units_dma_read bus _).trans (units_dma_read bus _)

theorem units_writeUnit (channel : Nat) (val : BitVec 16) (s : State Mem) :
    Units channel 0 s (writeUnit bus channel val s) := by
  unfold writeUnit
  dsimp only
  by_cases hsize : (!(s.dma channel).size) = true
  · rw [if_pos hsize]
    exact units_dma_write bus _ _
  · rw [if_neg hsize]
    unfold dma_writew
    by_cases hadvanced : s.dma_advanced = true
    · rw [if_pos hadvanced]
      exact units_writeAdvanced bus _ _ 2 hadvanced
    · rw [if_neg hadvanced]
      exact (units_dma_write bus _ _).trans (units_dma_write bus _ _)

/-! ## Address and count -/

theorem units_moveOn : Units channel 1 s (moveOn channel s) := by
  have hnext : Units channel 0 s
      (onChannel channel (fun c => { c with ac := nextAddress s c }) s) :=
    units_onChannel rfl rfl rfl
  exact ⟨hnext.mode, hnext.status, rfl, rfl, rfl, rfl, List.length_append, hnext.base,
    fun _ => rfl⟩

/-- The terminal count, which no block follows. -/
theorem units_terminal (hfollows : ¬ blockFollows channel s = true) (m stat : BitVec 8) :
    Units channel 0 s { s with dma_m := m, dma_stat := stat } :=
  ⟨rfl, rfl, rfl, rfl, rfl, rfl, rfl, Or.inl rfl, fun h => absurd h hfollows⟩

theorem gathers_of_follows (h : blockFollows channel s = true) : gathers channel s = true := by
  unfold blockFollows at h
  exact (Bool.and_eq_true_iff.mp h).1

theorem units_count (channel : Nat) (s : State Mem) :
    Units channel 0 s (countTransfer bus channel s).2 := by
  have hcount : Units channel 0 s (onChannel channel (fun c => { c with cc := c.cc - 1 }) s) :=
    units_onChannel rfl rfl rfl
  unfold countTransfer
  dsimp only
  generalize onChannel channel (fun c => { c with cc := c.cc - 1 }) s = t at hcount ⊢
  by_cases hcc : (t.dma channel).cc < 0
  · rw [if_pos hcc]
    by_cases hfollows : blockFollows channel t = true
    · rw [if_pos hfollows]
      exact hcount.trans (units_next bus (gathers_of_follows hfollows))
    · rw [if_neg hfollows]
      refine hcount.trans (k := 0) ?_
      by_cases hauto : (t.dma channel).mode &&& 0x10 ≠ 0
      · simp only [if_pos hauto]
        have hload : Units channel 0 t
            (onChannel channel (fun c => { c with cc := c.cb.toNat, ac := c.ab }) t) :=
          units_onChannel rfl rfl rfl
        exact hload.trans (units_terminal (by rwa [hload.blockFollows]) _ _)
      · simp only [if_neg hauto]
        exact units_terminal hfollows _ _
  · rw [if_neg hcc]
    exact hcount

theorem interrupt_low (x : BitVec 8) : (x ||| 8) &&& 7 = x &&& 7 := by
  apply BitVec.eq_of_getLsbD_eq
  intro i hi
  interval_cases i <;> simp

theorem units_interrupt : Units channel 0 s (terminalInterrupt channel s) := by
  unfold terminalInterrupt
  dsimp only
  split_ifs
  · have hstatus : Units channel 0 s
        (onChannel channel (fun c => { c with sg_status := c.sg_status ||| 8 }) s) :=
      units_onChannel rfl (interrupt_low _) rfl
    exact ⟨hstatus.mode, hstatus.status, rfl, rfl, rfl, rfl, rfl, hstatus.base, fun _ => rfl⟩
  · exact Units.refl channel s

/-! ## Calls -/

theorem units_advance : Units channel 0 s (dma_channel_advance_legacy bus channel s).2 := by
  have hcount := units_count bus channel s
  unfold dma_channel_advance_legacy
  split_ifs
  · have hpending : ∀ t : State Mem,
        Units channel 0 t
          { t with dma_stat_adv_pend := t.dma_stat_adv_pend &&& ~~~bit channel } :=
      fun t => ⟨rfl, rfl, rfl, rfl, rfl, rfl, rfl, Or.inl rfl, fun _ => rfl⟩
    dsimp only
    split_ifs
    · exact (hcount.trans units_interrupt).trans (hpending _)
    · exact hcount.trans (hpending _)
  · exact Units.refl channel s

/-- A read that no test turns away: a unit, and then the count. -/
theorem read_spec (hgo : refused channel s = false) (hmode : (s.dma channel).mode &&& 0xC = 8) :
    ∃ (temp : BitVec 16) (t : State Mem), Units channel 1 s t ∧
      dma_channel_read_legacy bus channel s =
        if (countTransfer bus channel t).1 then
          (temp.setWidth 32 ||| DMA_OVER, terminalInterrupt channel (countTransfer bus channel t).2)
        else (temp.setWidth 32, (countTransfer bus channel t).2) := by
  unfold dma_channel_read_legacy
  rw [if_neg (by rw [hgo]; decide), if_neg (not_not.mpr hmode)]
  have hadvance :
      Units channel 0 s
        (if pending channel s = true then (dma_channel_advance_legacy bus channel s).2 else s) := by
    split_ifs
    · exact units_advance bus
    · exact Units.refl channel s
  exact ⟨_, _, (hadvance.trans (units_readUnit bus channel _)).trans units_moveOn, rfl⟩

theorem write_spec (val : BitVec 16) (hgo : refused channel s = false)
    (hmode : (s.dma channel).mode &&& 0x0c = 4) :
    ∃ t : State Mem, Units channel 1 s t ∧
      dma_channel_write_legacy bus channel val s =
        if (countTransfer bus channel t).2.dma_m &&& bit channel ≠ 0 then
          (DMA_OVER, terminalInterrupt channel (countTransfer bus channel t).2)
        else (0, (countTransfer bus channel t).2) := by
  unfold dma_channel_write_legacy
  rw [if_neg (by rw [hgo]; decide)]
  dsimp only
  rw [if_neg (by rw [hmode]; decide), if_pos hmode]
  have hmoved := (units_writeUnit bus channel val s).trans units_moveOn
  generalize moveOn channel (writeUnit bus channel val s) = t at hmoved ⊢
  have hpending : Units channel 0 t
      { t with dma_stat_adv_pend := t.dma_stat_adv_pend &&& ~~~bit channel } :=
    ⟨rfl, rfl, rfl, rfl, rfl, rfl, rfl, Or.inl rfl, fun _ => rfl⟩
  exact ⟨_, hmoved.trans hpending, rfl⟩

/-- A read that no test turns away moves one unit. -/
theorem units_read (hgo : refused channel s = false) (hmode : (s.dma channel).mode &&& 0xC = 8) :
    Units channel 1 s (dma_channel_read_legacy bus channel s).2 := by
  obtain ⟨temp, t, hunits, hread⟩ := read_spec bus hgo hmode
  have hcount := hunits.trans (units_count bus channel t)
  rw [hread]
  split_ifs
  · exact hcount.trans units_interrupt
  · exact hcount

theorem units_write (val : BitVec 16) (hgo : refused channel s = false)
    (hmode : (s.dma channel).mode &&& 0x0c = 4) :
    Units channel 1 s (dma_channel_write_legacy bus channel val s).2 := by
  obtain ⟨t, hunits, hwrite⟩ := write_spec bus val hgo hmode
  have hcount := hunits.trans (units_count bus channel t)
  rw [hwrite]
  split_ifs
  · exact hcount.trans units_interrupt
  · exact hcount

theorem read_refused (hgo : refused channel s = true) :
    dma_channel_read_legacy bus channel s = (DMA_NODATA, s) := by
  unfold dma_channel_read_legacy
  rw [if_pos hgo]

theorem write_refused (val : BitVec 16) (hgo : refused channel s = true) :
    dma_channel_write_legacy bus channel val s = (DMA_NODATA, s) := by
  unfold dma_channel_write_legacy
  rw [if_pos hgo]

end blumach.dma.legacy
