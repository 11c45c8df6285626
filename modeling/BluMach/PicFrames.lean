-- What an acknowledge leaves alone. A relation that each part of a cycle meets is one that
-- the whole acknowledge meets, whatever slaves there are.
import BluMach.PicSlaves

namespace blumach.pic_8259

theorem State.get_set (s : State) (dev : Dev) (p : Pic) : (s.set dev p).get dev = p := by
  cases dev <;> rfl

theorem State.get_set_other {s : State} {dev dev' : Dev} {p : Pic} (h : dev' ≠ dev) :
    (s.set dev p).get dev' = s.get dev' := by
  cases dev <;> cases dev' <;> first | rfl | exact absurd rfl h

/-- The first cycle freezes a controller, and puts its interrupt in service. -/
def freeze (dev : Dev) (s : State) : State :=
  s.set dev (pic_acknowledge s.machine
    { s.get dev with interrupt := (s.get dev).interrupt ||| 0x20 })

/-- A relation that each part of an acknowledge cycle meets. -/
structure AckFrame (beyond : Nat → BitVec 32) (R : State → State → Prop) : Prop where
  refl : ∀ s, R s s
  trans : ∀ {s t u}, R s t → R t u → R s u
  data_bus : ∀ s dev v, R s (s.set dev { s.get dev with data_bus := v })
  idle : ∀ s dev, R s (s.set dev { s.get dev with int_pending := false })
  freeze : ∀ s dev, R s (freeze dev s)
  auto_eoi : ∀ s dev, R s (pic_auto_non_specific_eoi beyond dev s)

section

variable {beyond : Nat → BitVec 32} {R : State → State → Prop} {s s' : State}
  {m : Except Fault State}

/-- A program that ends in a state as the relation has it, when it comes to an end. -/
def EndsIn (R : State → State → Prop) (s : State) (m : Except Fault State) : Prop :=
  guarded.Ends m (R s) fun _ => True

theorem AckFrame.after (h : AckFrame beyond R) (hs : R s s') (hm : EndsIn R s' m) :
    EndsIn R s m :=
  guarded.Ends.mono hm fun _ => h.trans hs

theorem AckFrame.before_eoi (h : AckFrame beyond R) (hm : EndsIn R s m) (dev : Dev) :
    EndsIn R s (m.map (pic_auto_non_specific_eoi beyond dev)) :=
  guarded.ends_map (guarded.Ends.mono hm fun t ht => h.trans ht (h.auto_eoi t dev))

theorem AckFrame.cycleData (h : AckFrame beyond R) {ofSlave : Nat → State → Except Fault State}
    (hslave : ∀ intr t, EndsIn R t (ofSlave intr t)) (dev : Dev) (slave : Bool) (intr : Nat)
    (own : BitVec 8) (s : State) : EndsIn R s (cycleData ofSlave dev slave intr own s) := by
  unfold pic_8259.cycleData
  cases slave with
  | true =>
    refine guarded.ends_map (guarded.Ends.mono (hslave intr s) fun t ht => ?_)
    exact h.trans ht (h.data_bus t dev t.pic2.data_bus)
  | false => exact h.data_bus s dev own

/-- The first cycle, from the freeze on. -/
theorem AckFrame.first (h : AckFrame beyond R) {ofSlave : Nat → State → Except Fault State}
    (hslave : ∀ intr t, EndsIn R t (ofSlave intr t)) (dev : Dev) (s : State) :
    EndsIn R (pic_8259.freeze dev s) (ackCycle beyond ofSlave dev 0 s) := by
  unfold ackCycle
  dsimp only
  rw [if_pos rfl]
  exact h.cycleData hslave ..

theorem AckFrame.ackCycle (h : AckFrame beyond R) {ofSlave : Nat → State → Except Fault State}
    (hslave : ∀ intr t, EndsIn R t (ofSlave intr t)) (dev : Dev) (phase : Nat) (s : State) :
    EndsIn R s (ackCycle beyond ofSlave dev phase s) := by
  have hidle : ∀ slave intr own, EndsIn R s ((pic_8259.cycleData ofSlave dev slave intr own
      (s.set dev { s.get dev with int_pending := false })).map
        (pic_auto_non_specific_eoi beyond dev)) := fun slave intr own =>
    h.before_eoi (h.after (h.idle s dev) (h.cycleData hslave dev slave intr own _)) dev
  by_cases h0 : phase = 0
  · subst h0
    exact h.after (h.freeze s dev) (h.first hslave dev s)
  · unfold pic_8259.ackCycle
    dsimp only
    rw [if_neg h0]
    by_cases h86 : pic_i86_mode (s.get dev) = true
    · rw [if_pos h86]
      exact hidle ..
    · rw [if_neg h86]
      by_cases h1 : phase = 1
      · rw [if_pos h1]
        exact h.cycleData hslave ..
      · rw [if_neg h1]
        by_cases h2 : phase = 2
        · rw [if_pos h2]
          exact hidle ..
        · rw [if_neg h2]
          exact h.refl s

/-- The slave of the first controller, as a cycle calls for it. -/
def slaveCycle (beyond : Nat → BitVec 32) (phase : Nat) (x : Nat) (s : State) :
    Except Fault State :=
  if x = 2 ∧ s.machine.slave2 then
    pic_8259.ackCycle beyond (fun x _ => .error (.noSlave x)) .pic2 phase s
  else .error (.noSlave x)

theorem AckFrame.slaveCycle (h : AckFrame beyond R) (phase intr : Nat) (t : State) :
    EndsIn R t (slaveCycle beyond phase intr t) := by
  have hnone : ∀ x t, EndsIn R t ((fun x (_ : State) => .error (.noSlave x)) x t) :=
    fun _ _ => trivial
  unfold pic_8259.slaveCycle
  split_ifs
  · exact h.ackCycle hnone .pic2 phase t
  · exact trivial

theorem AckFrame.ack_read (h : AckFrame beyond R) (phase : Nat) (s : State) :
    EndsIn R s (pic_irq_ack_read beyond .pic phase s) :=
  h.ackCycle (h.slaveCycle phase) .pic phase s

/-- The first cycle of the first controller. -/
theorem AckFrame.first_read (h : AckFrame beyond R) (s : State) :
    EndsIn R (pic_8259.freeze .pic s) (pic_irq_ack_read beyond .pic 0 s) :=
  h.first (h.slaveCycle 0) .pic s

/-- A slave that is looked for is there, or the emulator stops. -/
theorem slaveAt_ends (s : State) (x : Nat) :
    guarded.Ends (slaveAt s x) (fun _ => True) fun _ => True := by
  unfold slaveAt
  split_ifs
  · exact trivial
  · exact trivial

/-- The CPU takes an interrupt: two cycles, from one of these states on. -/
theorem picinterrupt_ends {P : State → Prop}
    (htwo : ∀ t, t = s ∨ t = markSlave s ∨
        t = { s with pic2 := { s.pic2 with int_pending := true, interrupt := 0x07 } } →
      guarded.Ends (do
        let u ← nextCycle beyond t
        nextCycle beyond u) P fun _ => True) (hpending : s.pic.int_pending = true) :
    guarded.Ends (picinterrupt beyond s) P fun _ => True := by
  unfold picinterrupt
  rw [if_pos hpending]
  split_ifs
  · refine guarded.ends_bind (slaveAt_ends s _) fun slave _ => ?_
    cases slave.int_pending with
    | true => exact htwo _ (Or.inr (Or.inl rfl))
    | false => exact htwo _ (Or.inr (Or.inr rfl))
  · exact htwo s (Or.inl rfl)

end

end blumach.pic_8259
