-- The lines that devices share. Each chip counts the devices that hold a line, and
-- each device remembers whether it holds its own. A guest that writes ICW3 between
-- a raise and a lower may turn the one away from the other.
import BluMach.PicFrames
import Mathlib.Data.Fintype.Card

namespace blumach.pic_8259

/-! ## The count of a line -/

/-- The count of the devices on a line, in the chip that has the line. -/
def lineCount (s : State) (l : Fin 16) : BitVec 32 :=
  (s.get (if l.val < 8 then .pic else .pic2)).lines (Fin.ofNat 8 l.val)

/-- A step leaves the counts alone. -/
structure SameLines (s s' : State) : Prop where
  pic : s'.pic.lines = s.pic.lines
  pic2 : s'.pic2.lines = s.pic2.lines

section

variable {beyond : Nat → BitVec 32} {s s' s'' : State}

theorem SameLines.refl (s : State) : SameLines s s := ⟨rfl, rfl⟩

theorem SameLines.trans (h : SameLines s s') (h' : SameLines s' s'') : SameLines s s'' :=
  ⟨h'.pic.trans h.pic, h'.pic2.trans h.pic2⟩

theorem SameLines.lineCount (h : SameLines s s') (l : Fin 16) : lineCount s' l = lineCount s l := by
  unfold pic_8259.lineCount
  split_ifs
  · exact congrFun h.pic _
  · exact congrFun h.pic2 _

theorem same_lines_set (dev : Dev) {p : Pic} (h : p.lines = (s.get dev).lines) :
    SameLines s (s.set dev p) := by
  cases dev with
  | pic => exact ⟨h, rfl⟩
  | pic2 => exact ⟨rfl, h⟩

theorem findPending_lines (dev : Pic) : (findPending dev).lines = dev.lines := by
  unfold findPending find_best_interrupt
  cases bestOf dev (List.range 8) <;> rfl

theorem same_lines_update (beyond : Nat → BitVec 32) (s : State) :
    SameLines s (update_pending beyond s) := by
  unfold update_pending pic_update_pending_at pic_update_pending_xt
  split_ifs
  · exact .refl s
  · exact ⟨findPending_lines _, findPending_lines _⟩
  · exact .refl s
  · exact ⟨findPending_lines _, rfl⟩

theorem SameLines.update (h : SameLines s s') : SameLines s (update_pending beyond s') :=
  h.trans (same_lines_update beyond s')

/-! ## The guest -/

theorem same_lines_action (dev : Dev) (irq : Option Nat) (eoi rotate : Bool) :
    SameLines s (pic_action beyond dev irq eoi rotate s) := by
  unfold pic_action
  cases irq with
  | none => exact .refl s
  | some irq =>
    refine SameLines.update (same_lines_set dev ?_)
    split_ifs <;> rfl

theorem same_lines_command (dev : Dev) : SameLines s (pic_command beyond dev s) := by
  unfold pic_command
  dsimp only
  split_ifs
  · exact same_lines_action ..
  · exact same_lines_action ..
  · exact same_lines_set dev rfl

theorem SameLines.command (h : SameLines s s') (dev : Dev) :
    SameLines s (pic_command beyond dev s') :=
  h.trans (same_lines_command dev)

theorem same_lines_write (dev : Dev) (a0 : Bool) (val : BitVec 8) :
    SameLines s (pic_write beyond dev a0 val s) := by
  unfold pic_write
  dsimp only
  cases a0 with
  | true =>
    rw [if_pos rfl]
    split
    · exact same_lines_set dev rfl
    · exact same_lines_set dev rfl
    · exact same_lines_set dev rfl
    · split_ifs
      · exact SameLines.update (same_lines_set dev rfl)
      · exact same_lines_set dev rfl
  | false =>
    rw [if_neg Bool.false_ne_true]
    by_cases hicw1 : isSet (val &&& 0x10) = true
    · rw [if_pos hicw1]
      split_ifs
      · exact same_lines_set dev rfl
      · exact SameLines.update (same_lines_set dev rfl)
    · rw [if_neg hicw1]
      by_cases hocw3 : isSet (val &&& 0x08) = true
      · rw [if_pos hocw3]
        split_ifs <;> exact same_lines_set dev rfl
      · rw [if_neg hocw3]
        refine SameLines.command ?_ dev
        exact same_lines_set dev rfl

theorem same_lines_read (dev : Dev) (a0 : Bool) : SameLines s (pic_read beyond dev a0 s) := by
  unfold pic_read
  dsimp only
  by_cases hshadow : s.machine.shadow = true
  · rw [if_pos hshadow]
    exact same_lines_set dev rfl
  · rw [if_neg hshadow]
    by_cases hpoll : isSet ((s.get dev).ocw3 &&& 0x04) = true
    · rw [if_pos hpoll]
      split_ifs
      · refine SameLines.trans (SameLines.update ?_) (same_lines_set dev rfl)
        exact same_lines_set dev rfl
      · exact same_lines_set dev rfl
    · rw [if_neg hpoll]
      split_ifs <;> exact same_lines_set dev rfl

theorem same_lines_auto_eoi (dev : Dev) :
    SameLines s (pic_auto_non_specific_eoi beyond dev s) := by
  unfold pic_auto_non_specific_eoi
  dsimp only
  split_ifs
  · exact same_lines_action ..
  · exact .refl s

/-! ## The acknowledge -/

theorem same_lines_frame : AckFrame beyond SameLines where
  refl := SameLines.refl
  trans := SameLines.trans
  data_bus _ dev _ := same_lines_set dev rfl
  idle _ dev := same_lines_set dev rfl
  freeze _ dev := same_lines_set dev rfl
  auto_eoi _ dev := same_lines_auto_eoi dev

theorem same_lines_end : SameLines s (cycleEnd beyond s) := by
  unfold cycleEnd
  dsimp only
  split_ifs
  all_goals first
    | exact SameLines.update ⟨rfl, rfl⟩
    | exact ⟨rfl, rfl⟩

theorem same_lines_cycle (s : State) : EndsIn SameLines s (nextCycle beyond s) := by
  refine guarded.ends_map (guarded.Ends.mono (same_lines_frame.ack_read s.pic.ack_bytes s) ?_)
  exact fun t ht => ht.trans same_lines_end

theorem same_lines_irq_ack (s : State) : EndsIn SameLines s (pic_irq_ack beyond s) := by
  unfold pic_irq_ack
  split_ifs
  · refine guarded.ends_bind (slaveAt_ends s _) fun slave _ => ?_
    cases slave.int_pending with
    | true =>
      have hmarked : SameLines s (markSlave s) := ⟨rfl, rfl⟩
      exact (@same_lines_frame beyond).after hmarked (same_lines_cycle (markSlave s))
    | false => exact trivial
  · exact same_lines_cycle s

theorem same_lines_picinterrupt (hpending : s.pic.int_pending = true) :
    EndsIn SameLines s (picinterrupt beyond s) := by
  refine picinterrupt_ends (fun t ht => ?_) hpending
  have hstart : SameLines s t := by
    rcases ht with rfl | rfl | rfl
    · exact .refl _
    · exact ⟨rfl, rfl⟩
    · exact ⟨rfl, rfl⟩
  refine guarded.ends_bind (same_lines_cycle t) fun u hu => ?_
  exact guarded.Ends.mono (same_lines_cycle u) fun v hv => (hstart.trans hu).trans hv

end

/-! ## The line that a call finds -/

/-- One turn of the loop of `withoutSlaves`. -/
def slaveTurn (is_at : Bool) (icw3 : BitVec 8) (acc : BitVec 16 × Nat) (i : Nat) :
    BitVec 16 × Nat :=
  let (num, slaves) := acc
  let b : BitVec 16 := BitVec.twoPow 16 i
  if isSet (icw3 &&& bit i) then
    if isSet (num &&& b) then
      let num := num &&& ~~~b
      (if is_at ∧ i = 2 then num ||| BitVec.twoPow 16 9 else num, slaves + 1)
    else (num, slaves + 1)
  else (num, slaves)

theorem withoutSlaves_eq (is_at : Bool) (icw3 : BitVec 8) (num : BitVec 16) :
    withoutSlaves is_at icw3 num = (List.range 8).foldl (slaveTurn is_at icw3) (num, 0) := rfl

section

variable {is_at : Bool} {icw3 : BitVec 8}

theorem slaveTurn_slaves (acc : BitVec 16 × Nat) (i : Nat) :
    (slaveTurn is_at icw3 acc i).2 = if icw3.getLsbD i then acc.2 + 1 else acc.2 := by
  unfold slaveTurn
  dsimp only
  rw [bit, isSet_bit]
  split_ifs <;> rfl

theorem slaveTurn_num {acc : BitVec 16 × Nat} {i : Nat}
    (h : icw3.getLsbD i = true → acc.1.getLsbD i = false) :
    (slaveTurn is_at icw3 acc i).1 = acc.1 := by
  unfold slaveTurn
  dsimp only
  rw [bit, isSet_bit, isSet_bit]
  by_cases hi : icw3.getLsbD i = true
  · rw [if_pos hi, h hi, if_neg Bool.false_ne_true]
  · rw [if_neg hi]

theorem slaveTurns_slaves (l : List Nat) (acc : BitVec 16 × Nat) :
    (l.foldl (slaveTurn is_at icw3) acc).2 = 0 ↔
      acc.2 = 0 ∧ ∀ i ∈ l, icw3.getLsbD i = false := by
  induction l generalizing acc with
  | nil => simp
  | cons i rest ih =>
    rw [List.foldl_cons, ih, slaveTurn_slaves]
    cases hi : icw3.getLsbD i <;> simp [hi]

theorem slaveTurns_num (l : List Nat) (acc : BitVec 16 × Nat)
    (h : ∀ i ∈ l, icw3.getLsbD i = true → acc.1.getLsbD i = false) :
    (l.foldl (slaveTurn is_at icw3) acc).1 = acc.1 := by
  induction l generalizing acc with
  | nil => rfl
  | cons i rest ih =>
    have hfirst := @slaveTurn_num is_at icw3 acc i (h i List.mem_cons_self)
    rw [List.foldl_cons, ih, hfirst]
    intro j hj
    rw [hfirst]
    exact h j (List.mem_cons_of_mem i hj)

/-- No slaves are counted just when ICW3 names none. -/
theorem withoutSlaves_none (num : BitVec 16) : (withoutSlaves is_at icw3 num).2 = 0 ↔ icw3 = 0 := by
  rw [withoutSlaves_eq, slaveTurns_slaves]
  constructor
  · rintro ⟨-, h⟩
    apply BitVec.eq_of_getLsbD_eq
    intro i hi
    simpa using h i (List.mem_range.mpr hi)
  · rintro rfl
    simp

theorem twoPow_bit {k i : Nat} (hi : i < 16) : (BitVec.twoPow 16 k).getLsbD i = decide (k = i) := by
  simp [hi, eq_comm]

/-- The line that a call for one IRQ is about. There is none when ICW3 names the input of a slave.
-/
def heard (is_at : Bool) (icw3 : BitVec 8) (irq : Fin 16) : Option (Fin 16) :=
  if irq.val < 8 ∧ icw3.getLsbD irq.val = true then
    if is_at = true ∧ irq.val = 2 then some 9 else none
  else some irq

/-- One line, as a mask. -/
def only : Option (Fin 16) → BitVec 16
  | none => 0
  | some l => BitVec.twoPow 16 l.val

/-- The turn of the slave whose input the call is for. -/
theorem slaveTurn_named {irq : Fin 16} {acc : BitVec 16 × Nat}
    (hbit : icw3.getLsbD irq.val = true) (hacc : acc.1 = BitVec.twoPow 16 irq.val) :
    (slaveTurn is_at icw3 acc irq.val).1 =
      only (if is_at = true ∧ irq.val = 2 then some 9 else none) := by
  have hself : isSet (acc.1 &&& BitVec.twoPow 16 irq.val) = true := by
    rw [hacc, isSet_bit, twoPow_bit irq.isLt]
    exact decide_eq_true rfl
  unfold slaveTurn
  dsimp only
  rw [bit, isSet_bit, if_pos hbit, if_pos hself, hacc, BitVec.and_not_self]
  split_ifs <;> simp [only]

/-- The turns before and after that one. -/
theorem range_split {k n : Nat} (hk : k < n) : ∃ before after, List.range n = before ++ k :: after ∧
    (∀ i ∈ before, i < n ∧ i ≠ k) ∧ ∀ i ∈ after, i < n := by
  obtain ⟨before, after, hrange⟩ := List.append_of_mem (List.mem_range.mpr hk)
  have hnodup : (before ++ k :: after).Nodup := hrange ▸ List.nodup_range
  refine ⟨before, after, hrange, fun i hi => ⟨?_, ?_⟩, fun i hi => ?_⟩
  · rw [← List.mem_range, hrange]
    exact List.mem_append_left _ hi
  · exact (List.nodup_append.mp hnodup).2.2 i hi k List.mem_cons_self
  · rw [← List.mem_range, hrange]
    exact List.mem_append_right before (List.mem_cons_of_mem k hi)

theorem withoutSlaves_heard (irq : Fin 16) :
    (withoutSlaves is_at icw3 (BitVec.twoPow 16 irq.val)).1 = only (heard is_at icw3 irq) := by
  rw [withoutSlaves_eq]
  unfold heard
  by_cases hnamed : irq.val < 8 ∧ icw3.getLsbD irq.val = true
  · rw [if_pos hnamed]
    obtain ⟨h8, hbit⟩ := hnamed
    obtain ⟨before, after, hrange, hbefore, hafter⟩ := range_split h8
    have hcome := @slaveTurns_num is_at icw3 before (BitVec.twoPow 16 irq.val, 0) fun i hi _ => by
      obtain ⟨hi8, hne⟩ := hbefore i hi
      exact (twoPow_bit (by omega)).trans (decide_eq_false hne.symm)
    have hturn := @slaveTurn_named is_at icw3 irq _ hbit hcome
    rw [hrange, List.foldl_append, List.foldl_cons, slaveTurns_num, hturn]
    intro i hi _
    rw [hturn]
    have hi8 := hafter i hi
    split_ifs
    · simp only [only]
      rw [twoPow_bit (by omega)]
      exact decide_eq_false (by simp; omega)
    · simp [only]
  · rw [if_neg hnamed]
    refine slaveTurns_num _ _ fun i hi hbit => ?_
    have hi8 := List.mem_range.mp hi
    rw [twoPow_bit (by omega)]
    refine decide_eq_false ?_
    rintro rfl
    exact hnamed ⟨hi8, hbit⟩

end

/-! ## A call of a device -/

/-- A count after a device set its state. -/
def moved (set irq_state : Bool) (line : BitVec 32) : BitVec 32 :=
  if irq_state = set then line else if set then line + 1 else line - 1

section

variable {beyond : Nat → BitVec 32} {set irq_state : Bool}

theorem drive_other {l i : Nat} (hi : i < 16) (hne : i ≠ l) (machine : Machine)
    (acc : State × BitVec 16) : drive machine set irq_state (BitVec.twoPow 16 l) acc i = acc := by
  unfold drive
  dsimp only
  rw [isSet_bit, twoPow_bit hi, decide_eq_false hne.symm, if_neg Bool.false_ne_true]

/-- The chip that has a line. -/
def chipOf (l : Fin 16) : Dev := if l.val < 8 then .pic else .pic2

theorem drive_state (l : Fin 16) (machine : Machine) (s : State) (lines : BitVec 16) :
    (drive machine set irq_state (BitVec.twoPow 16 l.val) (s, lines) l.val).1 =
      s.set (chipOf l) { s.get (chipOf l) with
        lines := Function.update (s.get (chipOf l)).lines (Fin.ofNat 8 l.val)
          (moved set irq_state (lineCount s l)) } := by
  unfold drive
  dsimp only
  rw [isSet_bit, twoPow_bit l.isLt, decide_eq_true rfl, if_pos rfl]
  rfl

theorem same_place {l l' : Fin 16} (hchip : chipOf l' = chipOf l)
    (hplace : Fin.ofNat 8 l'.val = Fin.ofNat 8 l.val) : l' = l := by
  have hl := l.isLt
  have hl' := l'.isLt
  have hmod : l'.val % 8 = l.val % 8 := congrArg Fin.val hplace
  apply Fin.ext
  unfold chipOf at hchip
  split_ifs at hchip
  · omega
  · omega

theorem drive_line (l : Fin 16) (machine : Machine) (acc : State × BitVec 16) (l' : Fin 16) :
    lineCount (drive machine set irq_state (BitVec.twoPow 16 l.val) acc l.val).1 l' =
      if l' = l then moved set irq_state (lineCount acc.1 l') else lineCount acc.1 l' := by
  obtain ⟨s, lines⟩ := acc
  rw [drive_state]
  change ((s.set (chipOf l) _).get (chipOf l')).lines _ = _
  by_cases hchip : chipOf l' = chipOf l
  · rw [hchip, State.get_set]
    by_cases heq : l' = l
    · subst heq
      rw [if_pos rfl]
      exact Function.update_self ..
    · rw [if_neg heq]
      refine (Function.update_of_ne (fun hplace => heq (same_place hchip hplace)) ..).trans ?_
      rw [← hchip]
      rfl
  · rw [State.get_set_other hchip, if_neg fun heq => hchip (congrArg chipOf heq)]
    rfl

/-- A loop in which only one turn does anything. -/
theorem foldl_one_turn {α : Type} {f : α → Nat → α} {k : Nat} {l : List Nat}
    (hother : ∀ a, ∀ i ∈ l, i ≠ k → f a i = a) (hnodup : l.Nodup) (a : α) :
    l.foldl f a = if k ∈ l then f a k else a := by
  induction l generalizing a with
  | nil => rfl
  | cons i rest ih =>
    obtain ⟨hi, hnodup⟩ := List.nodup_cons.mp hnodup
    rw [List.foldl_cons, ih (fun a j hj => hother a j (List.mem_cons_of_mem i hj)) hnodup]
    by_cases hik : i = k
    · subst hik
      rw [if_neg hi, if_pos List.mem_cons_self]
    · rw [hother a i List.mem_cons_self hik]
      simp [Ne.symm hik]

/-- The lines are driven up to `max`. -/
theorem drive_lines (l : Fin 16) {max : Nat} (hmax : max ≤ 16) (s : State) (l' : Fin 16) :
    lineCount ((List.range max).foldl (drive s.machine set irq_state (BitVec.twoPow 16 l.val))
      (s, 0)).1 l' =
      if l' = l ∧ l.val < max then moved set irq_state (lineCount s l') else lineCount s l' := by
  rw [foldl_one_turn (k := l.val) ?_ List.nodup_range]
  · simp only [List.mem_range]
    by_cases hl : l.val < max
    · rw [if_pos hl, drive_line]
      simp only [hl, and_true]
    · rw [if_neg hl]
      simp only [hl, and_false, if_false]
  · intro acc i hi hne
    exact drive_other (by have := List.mem_range.mp hi; omega) hne s.machine acc

theorem same_lines_request (slaves : Nat) (num : BitVec 16) (s : State) :
    SameLines s (requestLines beyond set slaves num s) := by
  unfold requestLines
  dsimp only
  generalize (if slaves = 0 then num &&& 0x00ff else num) = num
  split_ifs
  · exact .refl s
  · exact SameLines.update ⟨rfl, rfl⟩
  · exact SameLines.update ⟨rfl, rfl⟩

theorem only_ne_zero (l : Fin 16) : only (some l) ≠ 0 := by
  intro h
  have hbit := congrArg (fun x => x.getLsbD l.val) h
  simp [only] at hbit

/-- A call moves the count of the line that it is about. A line of the second chip is beyond the
loop while ICW3 names no slave. -/
theorem level_call (irq : Fin 16) (s : State) (l' : Fin 16) :
    lineCount (picint_common beyond (BitVec.twoPow 16 irq.val) true set irq_state s) l' =
      if heard s.machine.is_at s.pic.icw3 irq = some l' ∧ (8 ≤ l'.val → s.pic.icw3 ≠ 0) then
        moved set irq_state (lineCount s l')
      else lineCount s l' := by
  have hnum := @withoutSlaves_heard s.machine.is_at s.pic.icw3 irq
  have hslaves := @withoutSlaves_none s.machine.is_at s.pic.icw3 (BitVec.twoPow 16 irq.val)
  unfold picint_common
  generalize withoutSlaves s.machine.is_at s.pic.icw3 (BitVec.twoPow 16 irq.val) = first
    at hnum hslaves ⊢
  obtain ⟨num, slaves⟩ := first
  dsimp only at hnum hslaves ⊢
  subst hnum
  cases heard s.machine.is_at s.pic.icw3 irq with
  | none =>
    rw [if_pos (show only none = 0 from rfl)]
    simp
  | some l =>
    have hmax : (if slaves = 0 then 8 else 16) ≤ 16 := by split_ifs <;> omega
    have hreach : l.val < (if slaves = 0 then 8 else 16) ↔ (8 ≤ l.val → s.pic.icw3 ≠ 0) := by
      have hl := l.isLt
      by_cases h0 : slaves = 0
      · rw [if_pos h0]
        simp only [hslaves.mp h0, ne_eq, not_true_eq_false, imp_false, Nat.not_le]
      · rw [if_neg h0]
        exact iff_of_true hl fun _ hicw3 => h0 (hslaves.mpr hicw3)
    rw [if_neg (only_ne_zero l), if_pos rfl, (same_lines_request ..).lineCount]
    refine (drive_lines l hmax s l').trans ?_
    simp only [hreach]
    by_cases hll : l' = l
    · subst hll
      simp
    · simp [hll, Ne.symm hll]

end

/-! ## The devices of a machine -/

/-- A device, with its IRQ and the line that it is counted on. IRQ 2 may be that of IRQ 9. -/
structure Source where
  irq : Fin 16
  line : Fin 16
  owned : line = irq ∨ irq = 2 ∧ line = 9

/-- The chips, and the byte of each device. -/
structure Bus (ι : Type) where
  chips : State
  irq_state : ι → Bool

/-- What is neither a level-triggered device nor a reset of the board. -/
def OfGuest : Op → Prop
  | .picint _ level _ _ => level = false
  | .reset => False
  | _ => True

inductive Act (ι : Type) where
  | guest (op : {op : Op // OfGuest op})
  | level (src : ι) (set : Bool)

/-- What a call leaves in the byte of its device. -/
def stateAfter (s : State) (num : BitVec 16) (set irq_state : Bool) : Bool :=
  if (withoutSlaves s.machine.is_at s.pic.icw3 num).1 = 0 then irq_state else set

section

variable {ι : Type} [Fintype ι] [DecidableEq ι] (beyond : Nat → BitVec 32) (sources : ι → Source)

def Bus.act (b : Bus ι) : Act ι → Except Fault (Bus ι)
  | .guest op => (step beyond b.chips op).map fun chips => { b with chips := chips }
  | .level src set =>
    let num := BitVec.twoPow 16 (sources src).irq.val
    let irq_state := b.irq_state src
    .ok
      { chips := picint_common beyond num true set irq_state b.chips
        irq_state := Function.update b.irq_state src (stateAfter b.chips num set irq_state) }

/-- The number of devices that hold a line. -/
def holders (irq_state : ι → Bool) (l : Fin 16) : Nat :=
  (Finset.univ.filter fun src => (sources src).line = l ∧ irq_state src = true).card

/-- Each count is the number of the devices that hold the line. -/
def Counted (b : Bus ι) : Prop :=
  ∀ l, lineCount b.chips l = BitVec.ofNat 32 (holders sources b.irq_state l)

/-- A device that turns its state finds its own line: IRQ 2 of an AT is IRQ 9 only while ICW3 names
its input, and the lines of the second chip are there only while ICW3 names any. -/
def FindsItsLine (b : Bus ι) : Act ι → Prop
  | .guest _ => True
  | .level src set => b.irq_state src ≠ set →
    ∀ l, heard b.chips.machine.is_at b.chips.pic.icw3 (sources src).irq = some l →
      l = (sources src).line ∧ (8 ≤ l.val → b.chips.pic.icw3 ≠ 0)

variable {beyond} {sources}

theorem holders_raise {irq_state : ι → Bool} {src : ι} (h : irq_state src = false) (l : Fin 16) :
    holders sources (Function.update irq_state src true) l =
      holders sources irq_state l + if (sources src).line = l then 1 else 0 := by
  unfold holders
  by_cases hl : (sources src).line = l
  · rw [if_pos hl, ← Finset.card_insert_of_notMem (a := src) (by simp [h])]
    congr 1
    ext other
    by_cases hother : other = src
    · subst hother
      simp [hl]
    · simp [hother]
  · rw [if_neg hl, Nat.add_zero]
    congr 1
    ext other
    by_cases hother : other = src
    · subst hother
      simp [hl]
    · simp [hother]

theorem holders_lower {irq_state : ι → Bool} {src : ι} (h : irq_state src = true) (l : Fin 16) :
    holders sources irq_state l = holders sources (Function.update irq_state src false) l +
      if (sources src).line = l then 1 else 0 := by
  have hback : irq_state = Function.update (Function.update irq_state src false) src true := by
    rw [Function.update_idem, ← h, Function.update_eq_self]
  conv_lhs => rw [hback]
  exact holders_raise (Function.update_self ..) l

/-- The number of holders goes as the count of the line of the device. -/
theorem holders_turn {irq_state : ι → Bool} {src : ι} {set : Bool} (h : irq_state src ≠ set)
    (l : Fin 16) :
    BitVec.ofNat 32 (holders sources (Function.update irq_state src set) l) =
      if (sources src).line = l then
        moved set (irq_state src) (BitVec.ofNat 32 (holders sources irq_state l))
      else BitVec.ofNat 32 (holders sources irq_state l) := by
  cases set with
  | true =>
    have hlow := Bool.eq_false_of_not_eq_true h
    rw [holders_raise hlow, hlow]
    by_cases hl : (sources src).line = l
    · rw [if_pos hl, if_pos hl]
      exact BitVec.ofNat_add ..
    · rw [if_neg hl, if_neg hl, Nat.add_zero]
  | false =>
    have hhigh := Bool.eq_true_of_not_eq_false h
    rw [holders_lower hhigh l, hhigh]
    by_cases hl : (sources src).line = l
    · rw [if_pos hl, if_pos hl, BitVec.ofNat_add]
      exact (BitVec.add_sub_cancel ..).symm
    · rw [if_neg hl, if_neg hl, Nat.add_zero]

theorem moved_ne {set irq_state : Bool} (h : irq_state ≠ set) (line : BitVec 32) :
    moved set irq_state line ≠ line := by
  unfold moved
  rw [if_neg h]
  split_ifs
  · bv_omega
  · bv_omega

/-! ## Runs -/

theorem same_lines_guest (op : {op : Op // OfGuest op}) (s : State) :
    EndsIn SameLines s (step beyond s op) := by
  obtain ⟨op, hop⟩ := op
  cases op with
  | write dev a0 val => exact same_lines_write dev a0 val
  | read dev a0 => exact same_lines_read dev a0
  | elcr_write dev val => exact same_lines_set dev rfl
  | picint num level set irq_state =>
    have hlevel : level = false := hop
    subst hlevel
    unfold step picint_common
    dsimp only
    generalize withoutSlaves s.machine.is_at s.pic.icw3 num = first
    obtain ⟨num, slaves⟩ := first
    dsimp only
    by_cases h0 : num = 0
    · rw [if_pos h0]
      exact SameLines.refl s
    · rw [if_neg h0, if_neg Bool.false_ne_true]
      exact same_lines_request ..
  | callback => exact same_lines_update beyond s
  | picinterrupt =>
    unfold step
    dsimp only
    split_ifs
    · rename_i hpending
      exact same_lines_picinterrupt hpending
    · exact SameLines.refl s
  | irq_ack => exact same_lines_irq_ack s
  | reset => exact hop.elim

theorem stateAfter_heard (s : State) (irq : Fin 16) (set irq_state : Bool) :
    stateAfter s (BitVec.twoPow 16 irq.val) set irq_state =
      if heard s.machine.is_at s.pic.icw3 irq = none then irq_state else set := by
  unfold stateAfter
  rw [withoutSlaves_heard]
  cases heard s.machine.is_at s.pic.icw3 irq with
  | none => rfl
  | some l => rw [if_neg (only_ne_zero l), if_neg (Option.some_ne_none l)]

/-- One step keeps the counts just when a device that turns its state finds its line. -/
theorem counted_step (b : Bus ι) (a : Act ι) (h : Counted sources b) :
    guarded.Ends (b.act beyond sources a) (fun b' => Counted sources b' ↔ FindsItsLine sources b a)
      fun _ => FindsItsLine sources b a := by
  cases a with
  | guest op =>
    refine guarded.ends_map ?_
    have hsame := @same_lines_guest beyond op b.chips
    cases hstep : step beyond b.chips op with
    | error e => exact trivial
    | ok chips =>
      rw [EndsIn, hstep] at hsame
      exact iff_of_true (fun l => (hsame.lineCount l).trans (h l)) trivial
  | level src set =>
    unfold Bus.act
    dsimp only
    change Counted sources _ ↔ _
    unfold Counted FindsItsLine
    dsimp only
    have hcount : ∀ l, lineCount b.chips l = BitVec.ofNat 32 (holders sources b.irq_state l) := h
    simp only [level_call, stateAfter_heard, hcount]
    by_cases hset : b.irq_state src = set
    · -- the byte stays, and the counts too
      refine iff_of_true (fun l => ?_) fun hno => absurd hset hno
      subst hset
      simp [moved]
    · cases hheard : heard b.chips.machine.is_at b.chips.pic.icw3 (sources src).irq with
      | none => simp
      | some line =>
        rw [if_neg (Option.some_ne_none line)]
        simp only [holders_turn hset, Option.some.injEq]
        constructor
        · -- the count of the device's own line moves only when the call finds it
          intro hall _ l hl
          have hown := hall (sources src).line
          rw [if_pos rfl] at hown
          by_cases hfound : line = (sources src).line ∧
              (8 ≤ (sources src).line.val → b.chips.pic.icw3 ≠ 0)
          · subst hl
            exact ⟨hfound.1, hfound.1 ▸ hfound.2⟩
          · rw [if_neg hfound] at hown
            exact absurd hown.symm (moved_ne hset _)
        · intro hfound l
          obtain ⟨rfl, hreach⟩ := hfound hset line rfl
          by_cases hl : (sources src).line = l
          · subst hl
            rw [if_pos ⟨rfl, hreach⟩, if_pos rfl]
          · rw [if_neg fun hno => hl hno.1, if_neg hl]

variable (sources) in
/-- A line is released just when no device holds it. -/
def Released (b : Bus ι) : Prop :=
  ∀ l, lineCount b.chips l = 0 ↔ ∀ src, (sources src).line = l → b.irq_state src = false

omit [DecidableEq ι] in
theorem Counted.released (hcard : Fintype.card ι < 2 ^ 32) {b : Bus ι} (h : Counted sources b) :
    Released sources b := by
  intro l
  have hle : holders sources b.irq_state l ≤ Fintype.card ι := Finset.card_le_univ _
  have hzero : BitVec.ofNat 32 (holders sources b.irq_state l) = 0 ↔
      holders sources b.irq_state l = 0 := by
    rw [← BitVec.toNat_inj, BitVec.toNat_ofNat, Nat.mod_eq_of_lt (by omega)]
    rfl
  rw [h l, hzero, holders, Finset.card_eq_zero, Finset.filter_eq_empty_iff]
  simp

end

/-- After a reset of the board, with no device that holds its line. -/
def resetBus {ι : Type} (machine : Machine) : Bus ι := ⟨pic_reset machine, fun _ => false⟩

theorem counted_reset {ι : Type} [Fintype ι] [DecidableEq ι] (sources : ι → Source)
    (machine : Machine) : Counted sources (resetBus machine) := by
  intro l
  have hnone : holders sources (fun _ => false) l = 0 := by simp [holders]
  change _ = BitVec.ofNat 32 (holders sources (fun _ => false) l)
  rw [hnone]
  unfold lineCount
  split_ifs <;> rfl

/-- However the devices and the guest take turns, each count is at all times the number of the
devices that hold the line, just when each device that turns its state finds its own line. Then a
line is released when the last of them lowers it. -/
theorem lines_count_their_sources {ι : Type} [Fintype ι] [DecidableEq ι] (beyond : Nat → BitVec 32)
    (sources : ι → Source) (machine : Machine) (acts : List (Act ι)) :
    (guarded.Throughout (Bus.act beyond sources) (Counted sources) (resetBus machine) acts ↔
      guarded.Along (Bus.act beyond sources) (FindsItsLine sources) (resetBus machine) acts) ∧
    (Fintype.card ι < 2 ^ 32 →
      guarded.Along (Bus.act beyond sources) (FindsItsLine sources) (resetBus machine) acts →
      guarded.Throughout (Bus.act beyond sources) (Released sources) (resetBus machine) acts) := by
  have hstep : ∀ b a, True → Counted sources b → guarded.Ends (b.act beyond sources a)
      (fun b' => True ∧ (Counted sources b' ↔ FindsItsLine sources b a))
      fun _ => FindsItsLine sources b a := fun b a _ hb =>
    (counted_step b a hb).mono fun b' hb' => ⟨trivial, hb'⟩
  have hiff := guarded.throughout_iff hstep trivial (counted_reset sources machine) acts
  refine ⟨hiff, fun hcard halong => ?_⟩
  exact (hiff.mpr halong).mono fun b hb => hb.released hcard

/-- Two cards on IRQ 11. -/
def twoCards : Bool → Source := fun _ => ⟨11, 11, Or.inl rfl⟩

/-- The first controller set up. One card raises the line, the other one too, and they lower it in
the same order. -/
def bothRaise : List (Act Bool) :=
  [.guest ⟨.write .pic false 0x11, trivial⟩, .guest ⟨.write .pic true 0x08, trivial⟩,
    .guest ⟨.write .pic true 0x04, trivial⟩, .guest ⟨.write .pic true 0x01, trivial⟩,
    .level false true, .level true true, .level false false, .level true false]

theorem the_second_card_releases_the_line :
    guarded.Throughout (Bus.act (fun _ => 0) twoCards) (Released twoCards) (resetBus at286)
      bothRaise := by
  refine (lines_count_their_sources _ twoCards at286 bothRaise).2 (by decide) ?_
  refine guarded.along_cons_ok rfl trivial ?_
  refine guarded.along_cons_ok rfl trivial ?_
  refine guarded.along_cons_ok rfl trivial ?_
  refine guarded.along_cons_ok rfl trivial ?_
  refine guarded.along_cons_ok rfl (fun _ => by decide) ?_
  refine guarded.along_cons_ok rfl (fun _ => by decide) ?_
  refine guarded.along_cons_ok rfl (fun _ => by decide) ?_
  exact guarded.along_cons_ok rfl (fun _ => by decide) guarded.along_nil

/-- One card, on IRQ 11. -/
def card : Unit → Source := fun _ => ⟨11, 11, Or.inl rfl⟩

/-- The card raises its line, the guest starts the first controller anew, and the card lowers its
line: it stays asserted, with no device that holds it. -/
theorem icw1_leaves_a_line_asserted :
    ¬∀ (ι : Type) [Fintype ι] [DecidableEq ι] (sources : ι → Source) (machine : Machine)
      (acts : List (Act ι)),
      guarded.Throughout (Bus.act (fun _ => 0) sources) (Counted sources) (resetBus machine)
        acts := by
  intro h
  have hend := h Unit card at286 [.guest ⟨.write .pic false 0x11, trivial⟩,
    .guest ⟨.write .pic true 0x08, trivial⟩, .guest ⟨.write .pic true 0x04, trivial⟩,
    .level () true, .guest ⟨.write .pic false 0x11, trivial⟩, .level () false] _ []
    (List.append_nil _).symm _ rfl 11
  exact absurd hend (by decide)

end blumach.pic_8259
