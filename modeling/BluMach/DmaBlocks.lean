-- The blocks that software asks for: the loop of `dma_block_transfer` counts in 16 bits up to a
-- bound of 16 bits, so that it ends for every base count but the largest.
import BluMach.DmaLegacyLaws
import Mathlib.Data.List.Range

namespace blumach.dma.legacy

variable {Mem : Type} {bus : Bus Mem} {channel n : Nat} {s t : State Mem}

/-! ## Turns of the loop -/

/-- The mode asks for a block, in one of the two directions. -/
def asked (channel : Nat) (s : State Mem) : Prop :=
  (s.dma channel).mode &&& 0x8c = 0x84 ∨ (s.dma channel).mode &&& 0x8c = 0x88

/-- The channel moves a block that software asks for. The mask does not hold it back. -/
structure Enabled (channel : Nat) (s : State Mem) : Prop where
  controller : (if channel < 4 then s.dma_command 0 else s.dma_command 1) &&& 0x04 = 0
  enable : s.dma_e &&& bit channel ≠ 0
  mode : asked channel s

instance (channel : Nat) (s : State Mem) : Decidable (asked channel s) :=
  inferInstanceAs (Decidable (_ ∨ _))

theorem refused_soft (hsoft : s.dma_req_is_soft = true) :
    refused channel s = false ↔
      (if channel < 4 then s.dma_command 0 else s.dma_command 1) &&& 0x04 = 0 ∧
        s.dma_e &&& bit channel ≠ 0 := by
  unfold refused
  rw [hsoft]
  by_cases hlow : channel < 4
  · simp [hlow]
  · simp [hlow]

theorem Units.refused (h : Units channel n s t) (hsoft : s.dma_req_is_soft = true) :
    refused channel t = refused channel s := by
  unfold legacy.refused
  rw [h.command, h.enabled, h.soft, hsoft]
  simp

theorem Units.asked (h : Units channel n s t) : asked channel t ↔ asked channel s := by
  unfold legacy.asked
  rw [h.mode]

theorem units_buffers (b : BitVec 16 → BitVec 8) (w : BitVec 16 → BitVec 16) :
    Units channel 0 s { s with dma_buffer := b, dma16_buffer := w } :=
  ⟨rfl, rfl, rfl, rfl, rfl, rfl, rfl, Or.inl rfl, fun _ => rfl⟩

theorem low_mode {x : BitVec 8} {y : BitVec 8} (h : x &&& 0x8c = y) : x &&& 0xC = y &&& 0xC := by
  rw [← h, BitVec.and_assoc]
  rfl

variable (bit16 : Bool) (i : BitVec 16) (used : List (BitVec 16))

/-- A turn that no test turns away moves one unit. -/
theorem turn_moves (hgo : refused channel s = false) (hasked : asked channel s) :
    Units channel 1 s (blockTurn bus channel bit16 i (s, used)).1 := by
  unfold blockTurn
  dsimp only
  rcases hasked with hwrite | hread
  · rw [if_pos hwrite]
    exact units_write bus _ hgo (low_mode hwrite)
  · rw [if_neg (by rw [hread]; decide), if_pos hread]
    have hmoved := units_read bus hgo (low_mode hread)
    cases bit16
    · exact hmoved.trans (units_buffers _ _)
    · exact hmoved.trans (units_buffers _ _)

theorem turn_refused (hgo : refused channel s = true ∨ ¬ asked channel s) :
    Units channel 0 s (blockTurn bus channel bit16 i (s, used)).1 := by
  unfold blockTurn
  dsimp only
  by_cases hwrite : (s.dma channel).mode &&& 0x8c = 0x84
  · rw [if_pos hwrite, write_refused bus _ (hgo.resolve_right (not_not.mpr (Or.inl hwrite)))]
    exact Units.refl channel s
  · rw [if_neg hwrite]
    by_cases hread : (s.dma channel).mode &&& 0x8c = 0x88
    · rw [if_pos hread, read_refused bus (hgo.resolve_right (not_not.mpr (Or.inr hread)))]
      cases bit16
      · exact units_buffers _ _
      · exact units_buffers _ _
    · rw [if_neg hread]
      exact Units.refl channel s

theorem turn_used :
    (blockTurn bus channel bit16 i (s, used)).2 =
      if asked channel s then used ++ [i] else used := by
  unfold blockTurn
  dsimp only
  by_cases hwrite : (s.dma channel).mode &&& 0x8c = 0x84
  · have hasked : asked channel s := Or.inl hwrite
    rw [if_pos hwrite, if_pos hasked]
  · rw [if_neg hwrite]
    by_cases hread : (s.dma channel).mode &&& 0x8c = 0x88
    · have hasked : asked channel s := Or.inr hread
      rw [if_pos hread, if_pos hasked]
    · have hnone : ¬ asked channel s := not_or.mpr ⟨hwrite, hread⟩
      rw [if_neg hread, if_neg hnone]

/-! ## Runs of the loop -/

/-- The units of `n` turns. -/
def moves (channel n : Nat) (s : State Mem) : Nat :=
  if refused channel s = false ∧ asked channel s then n else 0

/-- The indices of `n` turns. -/
def indices (channel n : Nat) (s : State Mem) : List (BitVec 16) :=
  if asked channel s then (List.range n).map (BitVec.ofNat 16) else []

open counted_loop

theorem turns_units (hsoft : s.dma_req_is_soft = true) (n : Nat) :
    Units channel (moves channel n s) s (after (blockTurn bus channel bit16) n (s, [])).1 ∧
      (after (blockTurn bus channel bit16) n (s, [])).2 = indices channel n s := by
  induction n with
  | zero =>
    refine ⟨?_, ?_⟩
    · have hnone : moves channel 0 s = 0 := by
        unfold moves
        split_ifs <;> rfl
      rw [hnone]
      exact Units.refl channel s
    · unfold indices
      split_ifs <;> rfl
  | succ n ih =>
    obtain ⟨hunits, hused⟩ := ih
    rw [after]
    generalize after (blockTurn bus channel bit16) n (s, []) = r at hunits hused ⊢
    obtain ⟨t, used⟩ := r
    have hrefused := hunits.refused hsoft
    refine ⟨?_, ?_⟩
    · by_cases hgo : refused channel s = false ∧ asked channel s
      · have hsucc : moves channel (n + 1) s = moves channel n s + 1 := by
          unfold moves
          rw [if_pos hgo, if_pos hgo]
        rw [hsucc]
        exact hunits.trans
          (turn_moves _ _ _ (hrefused.trans hgo.1) (hunits.asked.mpr hgo.2))
      · have hsame : moves channel (n + 1) s = moves channel n s + 0 := by
          unfold moves
          rw [if_neg hgo, if_neg hgo]
        rw [hsame]
        refine hunits.trans (turn_refused _ _ _ ?_)
        rw [hrefused, hunits.asked]
        rcases not_and_or.mp hgo with hturned | hmode
        · exact Or.inl (Bool.eq_true_of_not_eq_false hturned)
        · exact Or.inr hmode
    · rw [turn_used]
      simp only [hunits.asked]
      dsimp only at hused
      rw [hused]
      unfold indices
      by_cases hasked : asked channel s
      · rw [if_pos hasked, if_pos hasked, if_pos hasked, List.range_succ, List.map_append]
        rfl
      · rw [if_neg hasked, if_neg hasked, if_neg hasked]

theorem indices_nodup (hn : n ≤ 2 ^ 16) : (indices channel n s).Nodup := by
  unfold indices
  split_ifs
  · refine List.Nodup.map_on ?_ List.nodup_range
    intro x hx y hy h
    have hx := Nat.lt_of_lt_of_le (List.mem_range.mp hx) hn
    have hy := Nat.lt_of_lt_of_le (List.mem_range.mp hy) hn
    have h := congrArg BitVec.toNat h
    rwa [BitVec.toNat_ofNat, BitVec.toNat_ofNat, Nat.mod_eq_of_lt hx, Nat.mod_eq_of_lt hy] at h
  · exact List.nodup_nil

theorem mem_indices_le {b : BitVec 16} (hb : b.toNat + 1 < 2 ^ 16) :
    ∀ i ∈ indices channel (b.toNat + 1) s, i ≤ b := by
  unfold indices
  split_ifs
  · intro i hi
    obtain ⟨k, hk, rfl⟩ := List.mem_map.mp hi
    have hk := List.mem_range.mp hk
    rw [BitVec.le_def, BitVec.toNat_ofNat, Nat.mod_eq_of_lt (by omega)]
    omega
  · exact fun i hi => absurd hi List.not_mem_nil

theorem length_indices_le : (indices channel n s).length ≤ n := by
  unfold indices
  split_ifs
  · rw [List.length_map, List.length_range]
  · exact Nat.zero_le n

/-! ## Blocks -/

/-- What is asked of a block that is done. Both buffers have an entry for every 16-bit index. -/
structure MovesBlock (channel : Nat) (s t : State Mem) (used : List (BitVec 16)) : Prop where
  distinct : used.Nodup
  in_range : ∀ i ∈ used, i ≤ baseCount channel s
  at_most : used.length ≤ (baseCount channel s).toNat + 1
  units : Enabled channel s →
    used.length = (baseCount channel s).toNat + 1 ∧
      t.moved.length = s.moved.length + ((baseCount channel s).toNat + 1)

def BlockEnds (bus : Bus Mem) (channel : Nat) (s : State Mem) : Prop :=
  ∃ tests t used, dma_block_transfer bus channel tests s = some (t, used) ∧
    MovesBlock channel s t used

/-- The state with the request of the software. -/
def soft (s : State Mem) : State Mem := { s with dma_req_is_soft := true }

theorem enabled_iff : Enabled channel s ↔ refused channel (soft s) = false ∧ asked channel s := by
  rw [refused_soft rfl]
  exact ⟨fun h => ⟨⟨h.controller, h.enable⟩, h.mode⟩, fun h => ⟨h.1.1, h.1.2, h.2⟩⟩

/-- The state without it. -/
def hard (s : State Mem) : State Mem := { s with dma_req_is_soft := false }

/-- The width that the loop takes is fixed before it starts. -/
theorem transfer_eq (bus : Bus Mem) (channel : Nat) (s : State Mem) :
    ∃ bit16, ∀ tests, dma_block_transfer bus channel tests s =
      (run (fun r => baseCount channel r.1) (blockTurn bus channel bit16) tests 0
        (soft s, [])).map fun r => (hard r.1, r.2) :=
  ⟨_, fun _ => rfl⟩

/-- The end of the loop after `n` turns is the end of the block. -/
theorem transfer_of_run {tests : Nat} {r : State Mem × List (BitVec 16)}
    (htransfer : ∀ tests, dma_block_transfer bus channel tests s =
      (run (fun r => baseCount channel r.1) (blockTurn bus channel bit16) tests 0
        (soft s, [])).map fun r => (hard r.1, r.2))
    (hrun : run (fun r => baseCount channel r.1) (blockTurn bus channel bit16) tests 0
      (soft s, []) = some r) :
    dma_block_transfer bus channel tests s = some (hard r.1, r.2) := by
  rw [htransfer, hrun]
  rfl

theorem block_units (bus : Bus Mem) (channel : Nat) (s : State Mem) (n : Nat) :
    Units channel (moves channel n (soft s)) (soft s)
        (after (blockTurn bus channel bit16) n (soft s, [])).1 ∧
      (after (blockTurn bus channel bit16) n (soft s, [])).2 = indices channel n (soft s) :=
  turns_units bit16 rfl n

theorem base_ne (bus : Bus Mem) (hbase : baseCount channel s ≠ 0xffff) (n : Nat) :
    baseCount channel (after (blockTurn bus channel bit16) n (soft s, [])).1 ≠
      BitVec.allOnes 16 := by
  rcases (block_units bit16 bus channel s n).1.base with hsame | ⟨-, hne⟩
  · exact fun h => hbase (hsame.symm.trans h)
  · exact hne

/-- Only scatter/gather changes the bound of the loop. -/
theorem base_eq (bus : Bus Mem) (hown : gathers channel s = false) (n : Nat) :
    baseCount channel (after (blockTurn bus channel bit16) n (soft s, [])).1 =
      baseCount channel s := by
  rcases (block_units bit16 bus channel s n).1.base with hsame | ⟨hgathers, -⟩
  · exact hsame
  · rw [show gathers channel (soft s) = gathers channel s from rfl, hown] at hgathers
    cases hgathers

/-- The block ends, with scatter/gather too, where the base count is not the largest. -/
theorem block_returns (hbase : baseCount channel s ≠ 0xffff) :
    ∃ tests t used, dma_block_transfer bus channel tests s = some (t, used) ∧ used.Nodup := by
  obtain ⟨bit16, htransfer⟩ := transfer_eq bus channel s
  obtain ⟨n, hn, hrun⟩ :=
    @returns _ _ (fun r => baseCount channel r.1) (blockTurn bus channel bit16) (soft s, [])
      fun n => base_ne bit16 bus hbase n
  refine ⟨2 ^ 16, _, _, transfer_of_run bit16 htransfer hrun, ?_⟩
  rw [(block_units bit16 bus channel s n).2]
  exact indices_nodup (Nat.le_of_lt hn)

theorem block_moves (hown : gathers channel s = false) (hbase : baseCount channel s ≠ 0xffff) :
    BlockEnds bus channel s := by
  obtain ⟨bit16, htransfer⟩ := transfer_eq bus channel s
  have hlt : (baseCount channel s).toNat + 1 < 2 ^ 16 := by
    have hne : (baseCount channel s).toNat ≠ 0xffff := fun h => hbase (BitVec.eq_of_toNat_eq h)
    have := (baseCount channel s).isLt
    omega
  have hrun :=
    @run_of_bound _ _ (fun r => baseCount channel r.1) (blockTurn bus channel bit16) (soft s, []) _
      (fun n => base_eq bit16 bus hown n) hbase
  obtain ⟨hunits, hused⟩ :=
    block_units bit16 bus channel s ((baseCount channel s).toNat + 1)
  refine ⟨2 ^ 16, _, _, transfer_of_run bit16 htransfer hrun, ?_, ?_, ?_, ?_⟩
  · rw [hused]
    exact indices_nodup (Nat.le_of_lt hlt)
  · rw [hused]
    exact mem_indices_le hlt
  · rw [hused]
    exact length_indices_le
  · intro henabled
    have hgo := enabled_iff.mp henabled
    refine ⟨?_, ?_⟩
    · rw [hused]
      unfold indices
      rw [if_pos (show asked channel (soft s) from hgo.2), List.length_map, List.length_range]
    · have hmoved := hunits.moved
      unfold moves at hmoved
      rw [if_pos (show _ ∧ asked channel (soft s) from hgo)] at hmoved
      exact hmoved

/-- With the largest base count the test never fails, whatever the channel does. -/
theorem block_never_ends (hown : gathers channel s = false) (hbase : baseCount channel s = 0xffff)
    (tests : Nat) : dma_block_transfer bus channel tests s = none := by
  obtain ⟨bit16, htransfer⟩ := transfer_eq bus channel s
  have hrun :=
    @run_of_allOnes _ _ (fun r => baseCount channel r.1) (blockTurn bus channel bit16) (soft s, [])
      (fun n => (base_eq bit16 bus hown n).trans hbase) tests
  rw [htransfer, hrun]
  rfl

/-- A block of a channel that scatter/gather does not have ends, after one unit more than its base
count, for every base count but the largest. With scatter/gather it ends for these too. -/
theorem blocks_end_iff (bus : Bus Mem) (channel : Nat) (s : State Mem) :
    (baseCount channel s ≠ 0xffff →
        ∃ tests t used, dma_block_transfer bus channel tests s = some (t, used) ∧ used.Nodup) ∧
      (gathers channel s = false →
        (BlockEnds bus channel s ↔ baseCount channel s ≠ 0xffff)) := by
  refine ⟨block_returns, fun hown => ⟨?_, block_moves hown⟩⟩
  rintro ⟨tests, t, used, hends, -⟩ hbase
  rw [block_never_ends hown hbase] at hends
  cases hends

/-! ## A block of 65536 bytes -/

/-- A bus without memory. -/
def emptyBus : Bus Unit where
  mem_readb_phys := fun _ mem => (0xff, mem)
  mem_writeb_phys := fun _ _ mem => mem
  mem_read_phys := fun _ _ mem => (fun _ => 0xff, mem)
  mem_write_phys := fun _ _ _ mem => mem

/-- Every channel is to write a block, from the address 0. -/
def programmed (cb : BitVec 16) : State Unit where
  dma := fun c =>
    { mode := 0x84, sg_command := 0, sg_status := 0, cb := cb
      transfer_mode := if c < 4 then 0x0101 else 0x0202
      ptr := 0, ptr_cur := 0, addr := 0, ab := 0, ac := 0, cc := cb.toNat
      size := decide (4 ≤ c), count := 0, eot := false }
  dma_e := 0xff
  dma_m := 0
  dma_stat := 0
  dma_stat_rq := 0
  dma_stat_adv_pend := 0
  dma_command := fun _ => 0
  dma_req_is_soft := false
  dma_mask := 0x00ffffff
  is_ps2 := false
  dma_advanced := false
  dma_buffer := fun _ => 0
  dma16_buffer := fun _ => 0
  mem := ()
  moved := []
  gathered := []
  picints := 0

/-- The counter comes round to 0 before it passes the bound. -/
theorem the_block_of_65536_bytes_never_ends : ¬ BlockEnds emptyBus 2 (programmed 0xffff) := by
  rintro ⟨tests, t, used, hends, -⟩
  rw [block_never_ends rfl rfl] at hends
  cases hends

/-- A block of 4 bytes ends. -/
example : BlockEnds emptyBus 2 (programmed 3) := block_moves rfl (by decide)

end blumach.dma.legacy
