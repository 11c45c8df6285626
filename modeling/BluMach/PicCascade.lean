-- The input of the first controller that the second one is cascaded on. The code takes
-- it from ICW3 of the second one, which ICW1 clears: a write to the second
-- controller may then touch another request of the first.
import BluMach.PicSlaves

namespace blumach.pic_8259

/-! ## What a write to the second controller looks at -/

/-- A controller after `pic_action`, when that has an interrupt to end. -/
def acted (irq : Option Nat) (eoi rotate : Bool) (p : Pic) : Option Pic :=
  irq.map fun irq =>
    let p := if eoi then { p with isr := p.isr &&& ~~~bit irq } else p
    if rotate then { p with priority := (irq + 1) % 8 } else p

/-- The second controller after a write, when the write looks for requests. -/
def lookedAt (a0 : Bool) (val : BitVec 8) (s : State) : Option Pic :=
  let p := { s.pic2 with data_bus := val }
  if a0 then
    match p.state with
    | .STATE_NONE => if s.machine.imr_now then some { p with imr := val } else none
    | _ => none
  else if isSet (val &&& 0x10) then
    if s.machine.pci && isSet (val &&& 0xe0) then none else some (icw1_write val p)
  else if isSet (val &&& 0x08) then none
  else
    let p := { p with ocw2 := val }
    let irq := if isSet (val &&& 0x40) then some (val &&& 0x07).toNat else pic_non_specific_find p
    if isSet (val &&& 0x60) then acted irq (isSet (val &&& 0x20)) (isSet (val &&& 0x80)) p else none

/-- The other requests of the first controller stay: nothing is looked for, or the input that
ICW3 of the second controller names, IRQ 0 after an ICW1, already is as the second controller
wants it. -/
def Undisturbed (beyond : Nat → BitVec 32) (a0 : Bool) (val : BitVec 8) (s : State) : Prop :=
  ∀ p, lookedAt a0 val s = some p → frozen s.pic = true ∨
    ∀ j < 8, j ≠ 2 → ((one_shl beyond p.icw3.toNat).setWidth 8).getLsbD j = true →
      s.pic.irr.getLsbD j = (bestOf p (List.range 8)).isSome

section

variable {beyond : Nat → BitVec 32} {s : State}

theorem findPending_pending (dev : Pic) :
    (findPending dev).int_pending = (bestOf dev (List.range 8)).isSome := by
  unfold findPending find_best_interrupt
  cases bestOf dev (List.range 8) <;> rfl

theorem action_looks (irq : Option Nat) (eoi rotate : Bool) :
    (pic_action beyond .pic2 irq eoi rotate s).pic =
      match acted irq eoi rotate s.pic2 with
      | none => s.pic
      | some p => (update_pending beyond { s with pic2 := p }).pic := by
  cases irq <;> rfl

/-- A write to the second controller does to the first one what looking for requests does. -/
theorem slave_write (a0 : Bool) (val : BitVec 8) :
    (pic_write beyond .pic2 a0 val s).pic =
      match lookedAt a0 val s with
      | none => s.pic
      | some p => (update_pending beyond { s with pic2 := p }).pic := by
  unfold pic_write lookedAt
  cases a0 with
  | true =>
    simp only [if_true, State.get, State.set]
    cases s.pic2.state with
    | STATE_NONE =>
      dsimp only
      by_cases hnow : s.machine.imr_now = true
      · simp only [hnow, if_true]
      · simp only [hnow]
        rfl
    | STATE_ICW2 | STATE_ICW3 | STATE_ICW4 =>
      dsimp only
  | false =>
    simp only [Bool.false_eq_true, if_false, State.get]
    by_cases h10 : isSet (val &&& 0x10) = true
    · rw [if_pos h10, if_pos h10]
      by_cases hpci : (s.machine.pci && isSet (val &&& 0xe0)) = true
      · rw [if_pos hpci, if_pos hpci]
        rfl
      · rw [if_neg hpci, if_neg hpci]
        rfl
    · rw [if_neg h10, if_neg h10]
      by_cases h08 : isSet (val &&& 0x08) = true
      · rw [if_pos h08, if_pos h08]
        rfl
      · rw [if_neg h08, if_neg h08]
        unfold pic_command
        by_cases h60 : isSet (val &&& 0x60) = true
        · simp only [State.get, State.set, h60, if_true]
          exact action_looks ..
        · simp only [State.get, State.set, h60]
          rfl

/-- Looking for requests writes the request of the second controller to one input. -/
theorem updated_irr (hat : s.machine.is_at = true) (hf : frozen s.pic = false) (j : Nat)
    (hj : j < 8) : (update_pending beyond s).pic.irr.getLsbD j =
      if ((one_shl beyond s.pic2.icw3.toNat).setWidth 8).getLsbD j then
        (bestOf s.pic2 (List.range 8)).isSome
      else s.pic.irr.getLsbD j := by
  obtain ⟨hicw3, -⟩ := findPending_spec s.pic2
  unfold update_pending pic_update_pending_at
  rw [if_pos hat, hf, if_neg Bool.false_ne_true]
  dsimp only
  rw [(findPending_spec _).2.1, hicw3, findPending_pending]
  generalize (one_shl beyond s.pic2.icw3.toNat).setWidth 8 = b
  cases (bestOf s.pic2 (List.range 8)).isSome with
  | true =>
    rw [if_pos rfl, BitVec.getLsbD_or]
    cases b.getLsbD j <;> simp
  | false =>
    rw [if_neg Bool.false_ne_true, BitVec.getLsbD_and, BitVec.getLsbD_not]
    cases b.getLsbD j <;> simp [hj]

theorem updated_frozen (hat : s.machine.is_at = true) (hf : frozen s.pic = true) :
    (update_pending beyond s).pic = s.pic := by
  unfold update_pending pic_update_pending_at
  rw [if_pos hat, if_pos hf]

/-- A write to the second controller leaves the requests of the first one alone, but for
that of the slave, just when it does not look for requests under another name. -/
theorem slave_writes_keep_other_requests (a0 : Bool) (val : BitVec 8)
    (hat : s.machine.is_at = true) :
    (∀ j < 8, j ≠ 2 →
      (pic_write beyond .pic2 a0 val s).pic.irr.getLsbD j = s.pic.irr.getLsbD j) ↔
      Undisturbed beyond a0 val s := by
  unfold Undisturbed
  rw [slave_write]
  cases hlook : lookedAt a0 val s with
  | none => simp
  | some p =>
    simp only [Option.some.injEq, forall_eq']
    have hat' : ({ s with pic2 := p } : State).machine.is_at = true := hat
    cases hf : frozen s.pic with
    | true =>
      rw [updated_frozen hat' hf]
      simp
    | false =>
      simp only [Bool.false_eq_true, false_or]
      apply forall_congr'
      intro j
      apply imp_congr_right
      intro hj
      apply imp_congr_right
      intro _
      rw [updated_irr hat' hf j hj]
      cases hb : ((one_shl beyond p.icw3.toNat).setWidth 8).getLsbD j with
      | true =>
        rw [if_pos rfl]
        exact ⟨fun h _ => h.symm, fun h => (h rfl).symm⟩
      | false => simp

end

/-- The first controller as the BIOS of an AT leaves it, with a request of the timer. -/
def timerRequest : State :=
  { pic := { cleared true with icw1 := 0x11, icw2 := 0x08, icw3 := 0x04, icw4 := 0x01, irr := 0x01 }
    pic2 := { cleared false with icw1 := 0x11, icw2 := 0x70, icw3 := 0x02, icw4 := 0x01 }
    machine := at286 }

/-- ICW1 of the second controller takes the request of the timer away. -/
theorem icw1_of_the_slave_drops_the_timer :
    ¬∀ (s : State) (a0 : Bool) (val : BitVec 8), s.machine.is_at = true → ∀ j < 8, j ≠ 2 →
      (pic_write (fun _ => 0) .pic2 a0 val s).pic.irr.getLsbD j = s.pic.irr.getLsbD j := fun h =>
  absurd (h timerRequest false 0x11 rfl 0 (by decide) (by decide)) (by decide)

/-- A new mask of the second controller, in its place at IRQ 2. -/
theorem a_mask_of_the_slave_keeps_the_timer :
    (pic_write (fun _ => 0) .pic2 true 0xff timerRequest).pic.irr.getLsbD 0 =
      timerRequest.pic.irr.getLsbD 0 := by
  refine (slave_writes_keep_other_requests true 0xff rfl).mpr ?_ 0 (by decide) (by decide)
  intro p hp
  obtain rfl := Option.some.inj hp
  exact Or.inr (by decide)

end blumach.pic_8259
