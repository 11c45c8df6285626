-- The slaves of the interrupt controllers: a program that gives no request to an
-- input without a slave that ICW3 names, and no acknowledge to a frozen
-- controller, never reaches for a slave that is not there.
import BluMach.BitFields
import BluMach.Guarded
import BluMach.Pic
import Mathlib.Tactic.SplitIfs

namespace blumach.pic_8259

/-! ## Bits -/

theorem isSet_bit {w : Nat} (x : BitVec w) (i : Nat) :
    isSet (x &&& BitVec.twoPow w i) = x.getLsbD i :=
  bit_fields.and_bit_bne x i

/-- Two masks have no bit together. -/
def Apart (x y : BitVec 8) : Prop := ∀ i, x.getLsbD i = true → y.getLsbD i = false

theorem apart_zero (y : BitVec 8) : Apart 0 y := fun i h => by simp at h

theorem Apart.or {x y z : BitVec 8} (hy : Apart x y) (hz : Apart x z) : Apart x (y ||| z) :=
  fun i h => by rw [BitVec.getLsbD_or, hy i h, hz i h]; rfl

theorem Apart.and {x y : BitVec 8} (hy : Apart x y) (z : BitVec 8) : Apart x (y &&& z) :=
  fun i h => by rw [BitVec.getLsbD_and, hy i h]; rfl

/-- The slave bit, and the freeze. -/
def slaveBit (interrupt : BitVec 8) : Bool := interrupt.getLsbD 6

theorem slaveBit_eq (interrupt : BitVec 8) : isSet (interrupt &&& 0x40) = slaveBit interrupt :=
  isSet_bit interrupt 6

theorem frozen_eq (dev : Pic) : frozen dev = dev.interrupt.getLsbD 5 := isSet_bit dev.interrupt 5

/-! ## The condition -/

/-- The inputs of the first controller that ICW3 names and that have no slave. -/
def lone (machine : Machine) (icw3 : BitVec 8) : BitVec 8 :=
  icw3 &&& ~~~(if machine.slave2 then bit 2 else 0)

/-- The input of the first controller that ICW3 of the second one names. Only an AT has it. -/
def cascadeInput (beyond : Nat → BitVec 32) (machine : Machine) (icw3 : BitVec 8) : BitVec 8 :=
  if machine.is_at then (one_shl beyond icw3.toNat).setWidth 8 else 0

/-- The first controller may take its request for that of a slave while it is frozen. -/
def FrozenSlaves (dev : Pic) : Prop :=
  frozen dev = true ∧ pic_cascade_mode dev = true ∧ dev.icw3 ≠ 0

instance (dev : Pic) : Decidable (FrozenSlaves dev) := inferInstanceAs (Decidable (_ ∧ _ ∧ _))

/-- A write of ICW3 puts no request on an input that it names and that has no slave, nor leads the
second controller there, and an acknowledge does not find the first controller frozen. -/
def Meets (beyond : Nat → BitVec 32) (s : State) : Op → Prop
  | .write .pic true val => s.pic.state = .STATE_ICW3 →
    lone s.machine val &&& (s.pic.irr ||| cascadeInput beyond s.machine s.pic2.icw3) = 0
  | .write .pic2 true val => s.pic2.state = .STATE_ICW3 →
    lone s.machine s.pic.icw3 &&& cascadeInput beyond s.machine val = 0
  | .write .pic2 false val => isSet (val &&& 0x10) = true →
    (s.machine.pci && isSet (val &&& 0xe0)) = false →
    lone s.machine s.pic.icw3 &&& cascadeInput beyond s.machine 0 = 0
  | .picinterrupt => s.pic.int_pending = true → ¬FrozenSlaves s.pic
  | .irq_ack => s.pic.ack_bytes = 0 ∧ s.pic.int_pending = true → ¬FrozenSlaves s.pic
  | _ => True

/-! ## The invariant -/

/-- What holds at all times, also between the cycles of an acknowledge. -/
structure Held (beyond : Nat → BitVec 32) (s : State) : Prop where
  requests : Apart (lone s.machine s.pic.icw3) s.pic.irr
  cascade : Apart (lone s.machine s.pic.icw3) (cascadeInput beyond s.machine s.pic2.icw3)
  init : s.pic.state ≠ .STATE_NONE → s.pic.int_pending = false
  marked : slaveBit s.pic.interrupt = true →
    s.machine.slave2 = true ∧ (s.pic.interrupt &&& 7).toNat = 2
  single : slaveBit s.pic2.interrupt = false
  bytes : s.pic.ack_bytes < 3

/-- A request that is pending is one that was found, and not on an input without a slave. -/
def Fresh (s : State) : Prop :=
  s.pic.int_pending = true → frozen s.pic = false →
    s.pic.interrupt.toNat < 8 ∧
      (lone s.machine s.pic.icw3).getLsbD s.pic.interrupt.toNat = false

structure Safe (beyond : Nat → BitVec 32) (s : State) : Prop where
  held : Held beyond s
  fresh : Fresh s

/-- The controller has no request, and is neither frozen nor marked. -/
theorem idle_bits : slaveBit 0x17 = false ∧ (0x17 : BitVec 8).getLsbD 5 = false := by decide

theorem safe_reset (beyond : Nat → BitVec 32) (machine : Machine) :
    Safe beyond (pic_reset machine) := by
  have hlone : Apart (lone machine 0) = fun _ => True := by
    funext y
    rw [show lone machine 0 = 0 from BitVec.zero_and]
    exact eq_true (apart_zero y)
  refine ⟨⟨?_, ?_, fun h => absurd rfl h, fun h => ?_, idle_bits.1, Nat.zero_lt_succ 2⟩, nofun⟩
  · exact (congrFun hlone _).mpr trivial
  · exact (congrFun hlone _).mpr trivial
  · exact Bool.noConfusion (idle_bits.1.symm.trans h)

/-! ## Looking for a request -/

theorem bestOf_spec {dev : Pic} {j : Nat} {l : List Nat} (h : bestOf dev l = some j) :
    dev.state = .STATE_NONE ∧ j < 8 ∧ dev.irr.getLsbD j = true := by
  induction l with
  | nil => cases h
  | cons i rest ih =>
    unfold bestOf at h
    dsimp only at h
    split_ifs at h with hisr hreq
    · obtain rfl := Option.some.inj h
      have hbit := hreq.2
      rw [bit, isSet_bit, BitVec.getLsbD_and, Bool.and_eq_true] at hbit
      exact ⟨hreq.1, Nat.mod_lt _ (by decide), hbit.1⟩
    · exact ih h

/-- What `findPending` leaves of a controller, and what it finds. -/
theorem findPending_spec (dev : Pic) :
    (findPending dev).icw3 = dev.icw3 ∧ (findPending dev).irr = dev.irr ∧
      (findPending dev).state = dev.state ∧ (findPending dev).ack_bytes = dev.ack_bytes ∧
      (findPending dev).icw4 = dev.icw4 ∧
      slaveBit (findPending dev).interrupt = false ∧
      ((findPending dev).int_pending = true →
        dev.state = .STATE_NONE ∧ (findPending dev).interrupt.toNat < 8 ∧
          dev.irr.getLsbD (findPending dev).interrupt.toNat = true) := by
  unfold findPending find_best_interrupt
  cases h : bestOf dev (List.range 8) with
  | none =>
    exact ⟨rfl, rfl, rfl, rfl, rfl, idle_bits.1, fun hno => Bool.noConfusion hno⟩
  | some j =>
    obtain ⟨hstate, hj, hbit⟩ := bestOf_spec h
    have hto : (BitVec.ofNat 8 j).toNat = j := by
      rw [BitVec.toNat_ofNat]
      exact Nat.mod_eq_of_lt (by omega)
    refine ⟨rfl, rfl, rfl, rfl, rfl, ?_, fun _ => ⟨hstate, ?_, ?_⟩⟩
    · unfold slaveBit
      rw [BitVec.getLsbD, hto]
      exact Nat.testBit_lt_two_pow (by omega)
    · exact Nat.lt_of_le_of_lt (Nat.le_of_eq hto) hj
    · exact (congrArg dev.irr.getLsbD hto).trans hbit

section

variable {beyond : Nat → BitVec 32} {s : State}

/-- The first controller after `findPending`, whatever its requests are now. -/
theorem safe_found (irr : BitVec 8) (pic2 : Pic) (h : Held beyond s)
    (hirr : Apart (lone s.machine s.pic.icw3) irr) (hicw3 : pic2.icw3 = s.pic2.icw3)
    (hsingle : slaveBit pic2.interrupt = false) :
    Safe beyond { s with pic := findPending { s.pic with irr := irr }, pic2 := pic2 } := by
  obtain ⟨hi, hr, hs, hb, -, hm, hp⟩ := findPending_spec { s.pic with irr := irr }
  refine ⟨⟨?_, ?_, fun hstate => ?_, fun hmark => ?_, hsingle, ?_⟩, fun hpending _ => ?_⟩
  · dsimp only
    rw [hi, hr]
    exact hirr
  · dsimp only
    rw [hi, hicw3]
    exact h.cascade
  · by_contra hne
    exact hstate (hs.trans (hp (Bool.eq_true_of_not_eq_false hne)).1)
  · exact Bool.noConfusion (hm.symm.trans hmark)
  · exact hb.trans_lt h.bytes
  · obtain ⟨-, hlt, hbit⟩ := hp hpending
    refine ⟨hlt, ?_⟩
    dsimp only
    rw [hi]
    by_contra hlone
    exact Bool.noConfusion ((hirr _ (Bool.eq_true_of_not_eq_false hlone)).symm.trans hbit)

/-- Looking for a request makes the state safe. -/
theorem Held.update (h : Held beyond s) : Safe beyond (update_pending beyond s) := by
  unfold update_pending pic_update_pending_at pic_update_pending_xt
  have hfrozen : frozen s.pic = true → Safe beyond s := fun hf =>
    ⟨h, fun _ hno => Bool.noConfusion (hno.symm.trans hf)⟩
  split_ifs with hat h1 h2
  · exact hfrozen h1
  · obtain ⟨hi, -, -, -, -, hm, -⟩ := findPending_spec s.pic2
    refine safe_found _ _ h ?_ hi hm
    have hcascade := h.cascade
    rw [cascadeInput, if_pos hat, ← hi] at hcascade
    split_ifs
    · exact h.requests.or hcascade
    · exact h.requests.and _
  · exact hfrozen h2
  · exact safe_found s.pic.irr s.pic2 h h.requests rfl h.single

end

/-! ## Steps that keep the invariant -/

/-- A step keeps what holds at all times, and keeps a request that is pending as it should be. -/
structure Kept (beyond : Nat → BitVec 32) (s s' : State) : Prop where
  held : Held beyond s → Held beyond s'
  fresh : Held beyond s → Fresh s → Fresh s'

section

variable {beyond : Nat → BitVec 32} {s s' s'' : State}

theorem Kept.refl (beyond : Nat → BitVec 32) (s : State) : Kept beyond s s := ⟨id, fun _ => id⟩

theorem Kept.trans (h : Kept beyond s s') (h' : Kept beyond s' s'') : Kept beyond s s'' :=
  ⟨fun hs => h'.held (h.held hs), fun hs hf => h'.fresh (h.held hs) (h.fresh hs hf)⟩

theorem Kept.safe (h : Kept beyond s s') (hs : Safe beyond s) : Safe beyond s' :=
  ⟨h.held hs.held, h.fresh hs.held hs.fresh⟩

theorem kept_update (beyond : Nat → BitVec 32) (s : State) :
    Kept beyond s (update_pending beyond s) :=
  ⟨fun h => h.update.held, fun h _ => h.update.fresh⟩

/-- A step that leaves the first controller's request alone, and takes at most requests away. -/
theorem kept_of_same (hm : s'.machine = s.machine) (hi : s'.pic.icw3 = s.pic.icw3)
    (hr : ∀ x, Apart x s.pic.irr → Apart x s'.pic.irr) (hstate : s'.pic.state = s.pic.state)
    (hp : s'.pic.int_pending = s.pic.int_pending) (hint : s'.pic.interrupt = s.pic.interrupt)
    (hb : s'.pic.ack_bytes = s.pic.ack_bytes) (hi2 : s'.pic2.icw3 = s.pic2.icw3)
    (h2 : slaveBit s.pic2.interrupt = false → slaveBit s'.pic2.interrupt = false) :
    Kept beyond s s' := by
  refine ⟨fun h => ⟨?_, ?_, ?_, ?_, h2 h.single, ?_⟩, fun _ => ?_⟩
  · rw [hm, hi]
    exact hr _ h.requests
  · rw [hm, hi, hi2]
    exact h.cascade
  · rw [hstate, hp]
    exact h.init
  · rw [hint, hm]
    exact h.marked
  · rw [hb]
    exact h.bytes
  · unfold Fresh frozen
    rw [hp, hint, hm, hi]
    exact id

/-- A step that only changes other fields of a controller. -/
theorem kept_set (dev : Dev) (p : Pic) (hi : p.icw3 = (s.get dev).icw3)
    (hr : p.irr = (s.get dev).irr) (hstate : p.state = (s.get dev).state)
    (hp : p.int_pending = (s.get dev).int_pending) (hint : p.interrupt = (s.get dev).interrupt)
    (hb : p.ack_bytes = (s.get dev).ack_bytes) : Kept beyond s (s.set dev p) := by
  cases dev with
  | pic =>
    refine kept_of_same rfl hi (fun _ h => ?_) hstate hp hint hb rfl id
    change Apart _ p.irr
    rw [hr]
    exact h
  | pic2 =>
    refine kept_of_same rfl rfl (fun _ h => h) rfl rfl rfl rfl hi fun h => ?_
    change slaveBit p.interrupt = false
    rw [hint]
    exact h

theorem safe_set (dev : Dev) (h : Safe beyond s) {p : Pic} (hi : p.icw3 = (s.get dev).icw3)
    (hr : p.irr = (s.get dev).irr) (hstate : p.state = (s.get dev).state)
    (hp : p.int_pending = (s.get dev).int_pending) (hint : p.interrupt = (s.get dev).interrupt)
    (hb : p.ack_bytes = (s.get dev).ack_bytes) : Safe beyond (s.set dev p) :=
  (kept_set dev p hi hr hstate hp hint hb).safe h

theorem kept_elcr_write (dev : Dev) (val : BitVec 8) : Kept beyond s (pic_elcr_write dev val s) :=
  kept_set dev _ rfl rfl rfl rfl rfl rfl

theorem kept_action (dev : Dev) (irq : Option Nat) (eoi rotate : Bool) :
    Kept beyond s (pic_action beyond dev irq eoi rotate s) := by
  unfold pic_action
  cases irq with
  | none => exact .refl beyond s
  | some irq =>
    refine Kept.trans (kept_set dev _ ?_ ?_ ?_ ?_ ?_ ?_) (kept_update ..)
    all_goals split_ifs <;> rfl

theorem kept_command (dev : Dev) : Kept beyond s (pic_command beyond dev s) := by
  unfold pic_command
  dsimp only
  split_ifs
  · exact kept_action ..
  · exact kept_action ..
  · exact kept_set dev _ rfl rfl rfl rfl rfl rfl

/-- The acknowledge takes at most its request away. -/
theorem acknowledge_spec (machine : Machine) (p : Pic) :
    ∃ isr irr, pic_acknowledge machine p = { p with isr := isr, irr := irr } ∧
      ∀ x, Apart x p.irr → Apart x irr := by
  refine ⟨_, _, rfl, fun x h => ?_⟩
  split_ifs
  · exact h.and _
  · exact h

theorem slaveBit_thaw {interrupt : BitVec 8} :
    slaveBit (interrupt &&& ~~~0x20) = slaveBit interrupt := by
  unfold slaveBit
  rw [BitVec.getLsbD_and]
  exact Bool.and_true _

theorem slaveBit_freeze {interrupt : BitVec 8} :
    slaveBit (interrupt ||| 0x20) = slaveBit interrupt := by
  unfold slaveBit
  rw [BitVec.getLsbD_or]
  exact Bool.or_false _

theorem input_thaw (interrupt : BitVec 8) : interrupt &&& ~~~0x20 &&& 7 = interrupt &&& 7 := by
  rw [BitVec.and_assoc]
  rfl

theorem input_freeze (interrupt : BitVec 8) : (interrupt ||| 0x20) &&& 7 = interrupt &&& 7 := by
  rw [BitVec.and_or_distrib_right]
  exact BitVec.or_zero

/-- After a poll the first controller has no request, or looks for one. -/
theorem safe_poll_end (h : Safe beyond s) {p : Pic} (hi : p.icw3 = s.pic.icw3)
    (hr : ∀ x, Apart x s.pic.irr → Apart x p.irr) (hp : p.int_pending = false)
    (hint : p.interrupt = s.pic.interrupt &&& ~~~0x20) (hb : p.ack_bytes = s.pic.ack_bytes) :
    Safe beyond { s with pic := p } := by
  refine ⟨⟨?_, ?_, fun _ => hp, ?_, h.held.single, hb.trans_lt h.held.bytes⟩, fun hpending => ?_⟩
  · dsimp only
    rw [hi]
    exact hr _ h.held.requests
  · dsimp only
    rw [hi]
    exact h.held.cascade
  · dsimp only
    rw [hint, slaveBit_thaw, input_thaw]
    exact h.held.marked
  · exact Bool.noConfusion (hp.symm.trans hpending)

theorem kept_data_bus (dev : Dev) (v : BitVec 8) :
    Kept beyond s (s.set dev { s.get dev with data_bus := v }) :=
  kept_set dev _ rfl rfl rfl rfl rfl rfl

theorem kept_ocw3 (dev : Dev) (v : BitVec 8) :
    Kept beyond s (s.set dev { s.get dev with ocw3 := v }) :=
  kept_set dev _ rfl rfl rfl rfl rfl rfl

/-- The poll of a controller that has a request. -/
theorem safe_poll (dev : Dev) (v : BitVec 8) (h : Safe beyond s) :
    Safe beyond (s.set dev
      { pic_acknowledge s.machine { s.get dev with
          interrupt := (s.get dev).interrupt &&& ~~~0x20, data_bus := v } with
        int_pending := false }) := by
  obtain ⟨isr, irr, hack, hirr⟩ := acknowledge_spec s.machine { s.get dev with
    interrupt := (s.get dev).interrupt &&& ~~~0x20, data_bus := v }
  rw [hack]
  cases dev with
  | pic => exact safe_poll_end h rfl hirr rfl rfl rfl
  | pic2 =>
    refine Kept.safe (s := s) (kept_of_same rfl rfl (fun _ => id) rfl rfl rfl rfl rfl
      fun hs => ?_) h
    exact slaveBit_thaw.trans hs

/-- The poll of a controller that has none. -/
theorem safe_idle_poll (dev : Dev) (v ocw3 : BitVec 8) (hp : (s.get dev).int_pending = false)
    (h : Safe beyond s) :
    Safe beyond (s.set dev { s.get dev with
      interrupt := (s.get dev).interrupt &&& ~~~0x20, data_bus := v, ocw3 := ocw3 }) := by
  cases dev with
  | pic => exact safe_poll_end h rfl (fun _ => id) hp rfl rfl
  | pic2 =>
    refine Kept.safe (s := s) (kept_of_same rfl rfl (fun _ => id) rfl rfl rfl rfl rfl
      fun hs => ?_) h
    exact slaveBit_thaw.trans hs

theorem safe_read (dev : Dev) (a0 : Bool) (h : Safe beyond s) :
    Safe beyond (pic_read beyond dev a0 s) := by
  unfold pic_read
  dsimp only
  by_cases hshadow : s.machine.shadow = true
  · rw [if_pos hshadow]
    exact (kept_data_bus ..).safe h
  · rw [if_neg hshadow]
    by_cases hpoll : isSet ((s.get dev).ocw3 &&& 0x04) = true
    · rw [if_pos hpoll]
      by_cases hpending : (s.get dev).int_pending = true
      · rw [if_pos hpending]
        exact (kept_ocw3 ..).safe ((kept_update ..).safe (safe_poll dev _ h))
      · rw [if_neg hpending]
        exact safe_idle_poll dev _ _ (Bool.eq_false_of_not_eq_true hpending) h
    · rw [if_neg hpoll]
      split_ifs
      · exact (kept_data_bus ..).safe h
      · exact (kept_data_bus ..).safe h
      · exact (kept_data_bus ..).safe h

/-- A write of ICW3 of the first controller. Nothing is pending while it is set up. -/
theorem safe_icw3 {p : Pic} (val : BitVec 8) (h : Safe beyond s)
    (hstate : s.pic.state = .STATE_ICW3)
    (hval : lone s.machine val &&& (s.pic.irr ||| cascadeInput beyond s.machine s.pic2.icw3) = 0)
    (hi : p.icw3 = val) (hr : p.irr = s.pic.irr) (hp : p.int_pending = s.pic.int_pending)
    (hint : p.interrupt = s.pic.interrupt) (hb : p.ack_bytes = s.pic.ack_bytes) :
    Safe beyond { s with pic := p } := by
  have hidle : p.int_pending = false := hp.trans (h.held.init (by rw [hstate]; decide))
  have hapart : Apart (lone s.machine val)
      (s.pic.irr ||| cascadeInput beyond s.machine s.pic2.icw3) := fun i hi => by
    have hbit := congrArg (fun x => x.getLsbD i) hval
    simpa [hi] using hbit
  refine ⟨⟨fun i hbit => ?_, fun i hbit => ?_, fun _ => hidle, ?_, h.held.single,
    hb.trans_lt h.held.bytes⟩, fun hpending => Bool.noConfusion (hidle.symm.trans hpending)⟩
  · have hor := hapart i (by rw [← hi]; exact hbit)
    rw [BitVec.getLsbD_or, Bool.or_eq_false_iff] at hor
    exact (congrArg (BitVec.getLsbD · i) hr).trans hor.1
  · have hor := hapart i (by rw [← hi]; exact hbit)
    rw [BitVec.getLsbD_or, Bool.or_eq_false_iff] at hor
    exact hor.2
  · dsimp only
    rw [hint]
    exact h.held.marked

/-- A write of ICW3 of the second controller. -/
theorem safe_icw3_of_slave {p : Pic} (val : BitVec 8) (h : Held beyond s)
    (hval : lone s.machine s.pic.icw3 &&& cascadeInput beyond s.machine val = 0)
    (hi : p.icw3 = val) (hint : slaveBit p.interrupt = false) (hf : Fresh s) :
    Safe beyond { s with pic2 := p } := by
  refine ⟨⟨h.requests, fun i hbit => ?_, h.init, h.marked, hint, h.bytes⟩, hf⟩
  have hzero := congrArg (fun x => x.getLsbD i) hval
  dsimp only at hbit ⊢
  rw [hi]
  simpa [hbit] using hzero

/-- ICW1 of the first controller forgets its slaves. -/
theorem safe_icw1 (val : BitVec 8) {p : Pic} (h : Held beyond s) :
    Safe beyond (update_pending beyond { s with pic := icw1_write val p }) := by
  refine Held.update ⟨?_, ?_, fun _ => rfl, fun hmark => ?_, h.single, Nat.zero_lt_succ 2⟩
  · rw [show lone s.machine (icw1_write val p).icw3 = 0 from BitVec.zero_and]
    exact apart_zero _
  · rw [show lone s.machine (icw1_write val p).icw3 = 0 from BitVec.zero_and]
    exact apart_zero _
  · exact Bool.noConfusion (idle_bits.1.symm.trans hmark)

/-- OCW3, with the freeze of a poll. -/
theorem safe_freeze (dev : Dev) (h : Safe beyond s) {p : Pic} (hi : p.icw3 = (s.get dev).icw3)
    (hr : p.irr = (s.get dev).irr) (hstate : p.state = (s.get dev).state)
    (hp : p.int_pending = (s.get dev).int_pending)
    (hint : p.interrupt = (s.get dev).interrupt ||| 0x20)
    (hb : p.ack_bytes = (s.get dev).ack_bytes) :
    Safe beyond (s.set dev p) := by
  cases dev with
  | pic =>
    have hfrozen : frozen p = true := by
      rw [frozen_eq, hint, BitVec.getLsbD_or]
      exact Bool.or_true _
    refine ⟨⟨?_, ?_, ?_, ?_, h.held.single, hb.trans_lt h.held.bytes⟩,
      fun _ hno => Bool.noConfusion (hno.symm.trans hfrozen)⟩
    · change Apart (lone s.machine p.icw3) p.irr
      rw [hi, hr]
      exact h.held.requests
    · change Apart (lone s.machine p.icw3) _
      rw [hi]
      exact h.held.cascade
    · change p.state ≠ .STATE_NONE → p.int_pending = false
      rw [hstate, hp]
      exact h.held.init
    · change slaveBit p.interrupt = true → _ ∧ (p.interrupt &&& 7).toNat = 2
      rw [hint, slaveBit_freeze, input_freeze]
      exact h.held.marked
  | pic2 =>
    refine Kept.safe (s := s) (kept_of_same rfl rfl (fun _ => id) rfl rfl rfl rfl hi fun hs => ?_) h
    change slaveBit p.interrupt = false
    rw [hint, slaveBit_freeze]
    exact hs

/-- A write of ICW2 or ICW4. -/
theorem safe_setup (dev : Dev) (h : Safe beyond s) (hstate : (s.get dev).state ≠ .STATE_NONE)
    {p : Pic} (hi : p.icw3 = (s.get dev).icw3) (hr : p.irr = (s.get dev).irr)
    (hp : p.int_pending = (s.get dev).int_pending) (hint : p.interrupt = (s.get dev).interrupt)
    (hb : p.ack_bytes = (s.get dev).ack_bytes) : Safe beyond (s.set dev p) := by
  cases dev with
  | pic =>
    have hidle : p.int_pending = false := hp.trans (h.held.init hstate)
    refine ⟨⟨?_, ?_, fun _ => hidle, ?_, h.held.single, hb.trans_lt h.held.bytes⟩,
      fun hpending => Bool.noConfusion (hidle.symm.trans hpending)⟩
    · change Apart (lone s.machine p.icw3) p.irr
      rw [hi, hr]
      exact h.held.requests
    · change Apart (lone s.machine p.icw3) _
      rw [hi]
      exact h.held.cascade
    · change slaveBit p.interrupt = true → _ ∧ (p.interrupt &&& 7).toNat = 2
      rw [hint]
      exact h.held.marked
  | pic2 =>
    refine Kept.safe (s := s) (kept_of_same rfl rfl (fun _ => id) rfl rfl rfl rfl hi fun hs => ?_) h
    change slaveBit p.interrupt = false
    rw [hint]
    exact hs

theorem safe_write_a0 (dev : Dev) (val : BitVec 8) (h : Safe beyond s)
    (hmeets : Meets beyond s (.write dev true val)) :
    Safe beyond (pic_write beyond dev true val s) := by
  unfold pic_write
  dsimp only
  rw [if_pos rfl]
  split
  · rename_i hstate
    exact safe_setup dev h (by rw [hstate]; decide) rfl rfl rfl rfl rfl
  · rename_i hstate
    cases dev with
    | pic => exact safe_icw3 val h hstate (hmeets hstate) rfl rfl rfl rfl rfl
    | pic2 => exact safe_icw3_of_slave val h.held (hmeets hstate) rfl h.held.single h.fresh
  · rename_i hstate
    exact safe_setup dev h (by rw [hstate]; decide) rfl rfl rfl rfl rfl
  · split_ifs
    · exact (kept_update ..).safe (safe_set dev h rfl rfl rfl rfl rfl rfl)
    · exact safe_set dev h rfl rfl rfl rfl rfl rfl

theorem safe_write_icw1 (dev : Dev) (val : BitVec 8) (h : Safe beyond s)
    (hmeets : Meets beyond s (.write dev false val)) (hicw1 : isSet (val &&& 0x10) = true) :
    Safe beyond (pic_write beyond dev false val s) := by
  unfold pic_write
  dsimp only
  rw [if_neg Bool.false_ne_true, if_pos hicw1]
  by_cases hpci : (s.machine.pci && isSet (val &&& 0xe0)) = true
  · rw [if_pos hpci]
    exact (kept_data_bus ..).safe h
  · rw [if_neg hpci]
    cases dev with
    | pic => exact safe_icw1 val h.held
    | pic2 =>
      exact (kept_update ..).safe (safe_icw3_of_slave 0 h.held
        (hmeets hicw1 (Bool.eq_false_of_not_eq_true hpci)) rfl idle_bits.1 h.fresh)

theorem safe_write_ocw (dev : Dev) (val : BitVec 8) (h : Safe beyond s)
    (hicw1 : ¬isSet (val &&& 0x10) = true) : Safe beyond (pic_write beyond dev false val s) := by
  unfold pic_write
  dsimp only
  rw [if_neg Bool.false_ne_true, if_neg hicw1]
  by_cases hocw3 : isSet (val &&& 0x08) = true
  · rw [if_pos hocw3]
    by_cases hpoll : isSet (val &&& 0x04) = true
    · rw [if_pos hpoll]
      split_ifs
      · exact safe_freeze dev h rfl rfl rfl rfl rfl rfl
      · exact safe_freeze dev h rfl rfl rfl rfl rfl rfl
    · rw [if_neg hpoll]
      split_ifs
      · exact safe_set dev h rfl rfl rfl rfl rfl rfl
      · exact safe_set dev h rfl rfl rfl rfl rfl rfl
  · rw [if_neg hocw3]
    exact (kept_command dev).safe (safe_set dev h rfl rfl rfl rfl rfl rfl)

theorem safe_write (dev : Dev) (a0 : Bool) (val : BitVec 8) (h : Safe beyond s)
    (hmeets : Meets beyond s (.write dev a0 val)) :
    Safe beyond (pic_write beyond dev a0 val s) := by
  cases a0 with
  | true => exact safe_write_a0 dev val h hmeets
  | false =>
    by_cases hicw1 : isSet (val &&& 0x10) = true
    · exact safe_write_icw1 dev val h hmeets hicw1
    · exact safe_write_ocw dev val h hicw1

end

/-! ## The devices -/

/-- One turn of the first loop clears the input of a slave, and raises none below 8. -/
theorem withoutSlaves_fold (is_at : Bool) (icw3 : BitVec 8) (l : List Nat) (acc : BitVec 16 × Nat)
    {i : Nat} (hi : i < 8)
    (h : acc.1.getLsbD i = false ∨ i ∈ l ∧ icw3.getLsbD i = true) :
    (l.foldl (fun (num, slaves) i =>
      let b : BitVec 16 := BitVec.twoPow 16 i
      if isSet (icw3 &&& bit i) then
        if isSet (num &&& b) then
          let num := num &&& ~~~b
          (if is_at ∧ i = 2 then num ||| BitVec.twoPow 16 9 else num, slaves + 1)
        else (num, slaves + 1)
      else (num, slaves)) acc).1.getLsbD i = false := by
  induction l generalizing acc with
  | nil => exact h.resolve_right fun hno => absurd hno.1 List.not_mem_nil
  | cons j rest ih =>
    rw [List.foldl_cons]
    apply ih
    obtain ⟨num, slaves⟩ := acc
    dsimp only at h ⊢
    rw [bit, isSet_bit, isSet_bit]
    have hnine : (BitVec.twoPow 16 9).getLsbD i = false := by
      simp only [BitVec.getLsbD_twoPow]
      simp [show ¬9 = i by omega]
    by_cases hj : j = i
    · subst hj
      left
      rcases h with h | ⟨-, h⟩
      · split_ifs <;> simp [h, hnine]
      · rw [if_pos h]
        split_ifs with hnum hat
        · simp [hnine]
        · simp
        · exact Bool.eq_false_of_not_eq_true hnum
    · rcases h with h | ⟨hmem, h⟩
      · left
        split_ifs <;> simp [h, hnine]
      · exact Or.inr ⟨(List.mem_cons.mp hmem).resolve_left (Ne.symm hj), h⟩

theorem withoutSlaves_apart (is_at : Bool) (icw3 : BitVec 8) (num : BitVec 16) {i : Nat}
    (hi : i < 8) (h : icw3.getLsbD i = true) :
    (withoutSlaves is_at icw3 num).1.getLsbD i = false :=
  withoutSlaves_fold is_at icw3 (List.range 8) (num, 0) hi (Or.inr ⟨List.mem_range.mpr hi, h⟩)

section

variable {beyond : Nat → BitVec 32} {s : State}

theorem raised_bits {c : Prop} [Decidable c] {lines : BitVec 16} {i j : Nat}
    (h : (if c then lines ||| BitVec.twoPow 16 j else lines).getLsbD i = true) :
    lines.getLsbD i = true ∨ i = j := by
  split_ifs at h
  · rw [BitVec.getLsbD_or, Bool.or_eq_true, BitVec.getLsbD_twoPow] at h
    rcases h with h | h
    · exact Or.inl h
    · simp only [Bool.and_eq_true, decide_eq_true_eq] at h
      exact Or.inr h.2.symm
  · exact Or.inl h

/-- The lines that come out are among those that went in, and only the counts of the lines change.
-/
theorem drive_fold (set irq_state : Bool) (num : BitVec 16) (l : List Nat)
    (acc : State × BitVec 16) (hk : Kept beyond s acc.1) (hm : acc.1.machine = s.machine)
    (hi : acc.1.pic.icw3 = s.pic.icw3)
    (h : ∀ i, acc.2.getLsbD i = true → num.getLsbD i = true) :
    let r := l.foldl (drive s.machine set irq_state num) acc
    Kept beyond s r.1 ∧ r.1.machine = s.machine ∧ r.1.pic.icw3 = s.pic.icw3 ∧
      ∀ i, r.2.getLsbD i = true → num.getLsbD i = true := by
  induction l generalizing acc with
  | nil => exact ⟨hk, hm, hi, h⟩
  | cons j rest ih =>
    rw [List.foldl_cons]
    obtain ⟨t, lines⟩ := acc
    unfold drive
    dsimp only
    by_cases hnum : isSet (num &&& BitVec.twoPow 16 j) = true
    · rw [if_pos hnum]
      rw [isSet_bit] at hnum
      refine ih _ (hk.trans (kept_set _ _ rfl rfl rfl rfl rfl rfl)) ?_ ?_ fun i hbit => ?_
      · split_ifs <;> exact hm
      · split_ifs <;> exact hi
      · rcases raised_bits hbit with hold | rfl
        · exact h i hold
        · exact hnum
    · rw [if_neg hnum]
      exact ih _ hk hm hi h

theorem safe_requestLines (set : Bool) (slaves : Nat) (num : BitVec 16) (h : Safe beyond s)
    (hnum : ∀ i < 8, s.pic.icw3.getLsbD i = true → num.getLsbD i = false) :
    Safe beyond (requestLines beyond set slaves num s) := by
  unfold requestLines
  generalize hnum' : (if slaves = 0 then num &&& 0x00ff else num) = num'
  have hlow : ∀ x, Apart (lone s.machine s.pic.icw3) x →
      Apart (lone s.machine s.pic.icw3) (x ||| num'.setWidth 8) := fun x hx => by
    refine hx.or fun i hi => ?_
    have hi8 : i < 8 := BitVec.lt_of_getLsbD hi
    rw [lone, BitVec.getLsbD_and, Bool.and_eq_true] at hi
    have hclear := hnum i hi8 hi.1
    rw [BitVec.getLsbD_setWidth, ← hnum']
    split_ifs <;> simp [hclear]
  dsimp only
  by_cases h0 : num' = 0
  · rw [if_pos h0]
    exact h
  · rw [if_neg h0]
    refine (kept_update ..).safe ?_
    cases set with
    | true => exact ⟨{ h.held with requests := hlow _ h.held.requests }, h.fresh⟩
    | false => exact ⟨{ h.held with requests := h.held.requests.and _ }, h.fresh⟩

/-- The requests of the devices are not on the inputs of slaves. -/
theorem safe_picint (num : BitVec 16) (level set irq_state : Bool) (h : Safe beyond s) :
    Safe beyond (picint_common beyond num level set irq_state s) := by
  have hclear := @withoutSlaves_apart s.machine.is_at s.pic.icw3 num
  unfold picint_common
  generalize withoutSlaves s.machine.is_at s.pic.icw3 num = first at hclear ⊢
  obtain ⟨num, slaves⟩ := first
  dsimp only at hclear ⊢
  by_cases h0 : num = 0
  · rw [if_pos h0]
    exact h
  · rw [if_neg h0]
    cases level with
    | true =>
      obtain ⟨hk, -, hi, hlines⟩ := @drive_fold beyond s set irq_state num
        (List.range (if slaves = 0 then 8 else 16)) (s, 0) (.refl beyond s) rfl rfl (by simp)
      refine safe_requestLines set slaves _ (hk.safe h) fun i hi8 hbit => ?_
      by_contra hne
      rw [hi] at hbit
      exact hne (by
        rw [← hclear hi8 hbit]
        exact absurd (hlines i (Bool.eq_true_of_not_eq_false hne))
          (by rw [hclear hi8 hbit]; exact Bool.false_ne_true))
    | false => exact safe_requestLines set slaves num h fun i hi8 => hclear hi8

end

/-! ## The acknowledge cycles -/

/-- A part of an acknowledge: the invariant is kept, and the mode and the count of the cycles too.
-/
structure Turn (beyond : Nat → BitVec 32) (s s' : State) : Prop where
  kept : Kept beyond s s'
  machine : s'.machine = s.machine
  icw4 : s'.pic.icw4 = s.pic.icw4
  bytes : s'.pic.ack_bytes = s.pic.ack_bytes

section

variable {beyond : Nat → BitVec 32} {s s' s'' : State}

theorem Turn.trans (h : Turn beyond s s') (h' : Turn beyond s' s'') : Turn beyond s s'' :=
  ⟨h.kept.trans h'.kept, h'.machine.trans h.machine, h'.icw4.trans h.icw4, h'.bytes.trans h.bytes⟩

theorem turn_update (beyond : Nat → BitVec 32) (s : State) :
    Turn beyond s (update_pending beyond s) := by
  refine ⟨kept_update .., ?_, ?_, ?_⟩
  all_goals
    unfold update_pending pic_update_pending_at pic_update_pending_xt
    split_ifs
  all_goals first
    | rfl
    | exact (findPending_spec _).2.2.2.2.1
    | exact (findPending_spec _).2.2.2.1

theorem turn_set (dev : Dev) {p : Pic} (hi : p.icw3 = (s.get dev).icw3)
    (hr : p.irr = (s.get dev).irr) (hstate : p.state = (s.get dev).state)
    (hp : p.int_pending = (s.get dev).int_pending) (hint : p.interrupt = (s.get dev).interrupt)
    (hb : p.ack_bytes = (s.get dev).ack_bytes) (h4 : p.icw4 = (s.get dev).icw4) :
    Turn beyond s (s.set dev p) := by
  refine ⟨kept_set dev p hi hr hstate hp hint hb, ?_, ?_, ?_⟩
  · cases dev <;> rfl
  · cases dev
    · exact h4
    · rfl
  · cases dev
    · exact hb
    · rfl

theorem turn_auto_eoi (dev : Dev) : Turn beyond s (pic_auto_non_specific_eoi beyond dev s) := by
  have hrefl : Turn beyond s s := ⟨.refl beyond s, rfl, rfl, rfl⟩
  unfold pic_auto_non_specific_eoi
  dsimp only
  by_cases hauto : isSet ((s.get dev).icw4 &&& 2) = true
  · rw [if_pos hauto]
    unfold pic_action
    cases pic_non_specific_find (s.get dev) with
    | none => exact hrefl
    | some irq =>
      refine (turn_set dev ?_ ?_ ?_ ?_ ?_ ?_ ?_).trans (turn_update ..)
      all_goals split_ifs <;> rfl
  · rw [if_neg hauto]
    exact hrefl

theorem turn_idle (dev : Dev) :
    Turn beyond s (s.set dev { s.get dev with int_pending := false }) := by
  cases dev with
  | pic =>
    exact ⟨⟨fun h => ⟨h.requests, h.cascade, fun _ => rfl, h.marked, h.single, h.bytes⟩,
      fun _ _ => nofun⟩, rfl, rfl, rfl⟩
  | pic2 => exact ⟨kept_of_same rfl rfl (fun _ => id) rfl rfl rfl rfl rfl id, rfl, rfl, rfl⟩

/-- The freeze and the acknowledge of the first cycle. -/
theorem turn_freeze (dev : Dev) :
    Turn beyond s (s.set dev (pic_acknowledge s.machine { s.get dev with
      interrupt := (s.get dev).interrupt ||| 0x20 })) := by
  obtain ⟨isr, irr, hack, hirr⟩ := acknowledge_spec s.machine { s.get dev with
    interrupt := (s.get dev).interrupt ||| 0x20 }
  rw [hack]
  cases dev with
  | pic =>
    refine ⟨⟨fun h => ⟨hirr _ h.requests, h.cascade, h.init, fun hmark => ?_, h.single, h.bytes⟩,
      fun _ _ _ hno => ?_⟩, rfl, rfl, rfl⟩
    · change _ ∧ ((s.pic.interrupt ||| 0x20) &&& 7).toNat = 2
      rw [input_freeze]
      exact h.marked (slaveBit_freeze.symm.trans hmark)
    · refine absurd hno (Bool.eq_false_iff.not.mpr (not_not.mpr ?_))
      rw [frozen_eq]
      exact (BitVec.getLsbD_or ..).trans (Bool.or_true _)
  | pic2 =>
    exact ⟨kept_of_same rfl rfl (fun _ => id) rfl rfl rfl rfl rfl fun hs =>
      slaveBit_freeze.trans hs, rfl, rfl, rfl⟩

/-- What a cycle does, but for its end, when the slave of the request is there. -/
theorem cycleData_spec {ofSlave : Nat → State → Except Fault State} {dev : Dev} {slave : Bool}
    {intr : Nat} (own : BitVec 8)
    (h : slave = true → ∃ s', ofSlave intr s = .ok s' ∧ Turn beyond s s') :
    ∃ s', cycleData ofSlave dev slave intr own s = .ok s' ∧ Turn beyond s s' := by
  unfold cycleData
  cases slave with
  | true =>
    obtain ⟨t, ht, hturn⟩ := h rfl
    rw [if_pos rfl, ht]
    exact ⟨_, rfl, hturn.trans (turn_set dev rfl rfl rfl rfl rfl rfl rfl)⟩
  | false => exact ⟨_, rfl, turn_set dev rfl rfl rfl rfl rfl rfl rfl⟩

theorem fresh_idle (s : State) : Fresh (s.set .pic { s.get .pic with int_pending := false }) :=
  nofun

theorem fresh_freeze (s : State) :
    Fresh (s.set .pic (pic_acknowledge s.machine { s.get .pic with
      interrupt := (s.get .pic).interrupt ||| 0x20 })) := by
  intro _ hno
  refine absurd hno (Bool.eq_false_iff.not.mpr (not_not.mpr ?_))
  rw [frozen_eq]
  exact (BitVec.getLsbD_or ..).trans (Bool.or_true _)

/-- The end of a cycle. -/
theorem ended {dev : Dev} {m : Except Fault State}
    (h : ∃ t, m = .ok t ∧ Turn beyond s t) :
    ∃ s', m.map (pic_auto_non_specific_eoi beyond dev) = .ok s' ∧ Turn beyond s s' := by
  obtain ⟨t, rfl, hturn⟩ := h
  exact ⟨_, rfl, hturn.trans (turn_auto_eoi dev)⟩

/-- A cycle that is done from `t` on. -/
theorem from_turn {dev : Dev} {t : State} {m : Except Fault State} (h : Held beyond s)
    (hturn : Turn beyond s t) (hfresh : dev = .pic → Fresh t)
    (hrest : ∃ s', m = .ok s' ∧ Turn beyond t s') :
    ∃ s', m = .ok s' ∧ Turn beyond s s' ∧ (dev = .pic → Fresh s') := by
  obtain ⟨s', hs', hrun⟩ := hrest
  exact ⟨s', hs', hturn.trans hrun, fun hdev => hrun.kept.fresh (hturn.kept.held h) (hfresh hdev)⟩

/-- A cycle keeps the invariant, when the slave of a marked request is there. After it no request
is pending that is not as it should be, but for the middle cycle of the three of the 8080. -/
theorem ackCycle_spec {ofSlave : Nat → State → Except Fault State} (dev : Dev) (phase : Nat)
    (h : Held beyond s)
    (hslave : ∀ t, Turn beyond s t → isSet ((s.get dev).interrupt &&& 0x40) = true →
      ∃ t', ofSlave ((s.get dev).interrupt &&& 7).toNat t = .ok t' ∧ Turn beyond t t') :
    ∃ s', ackCycle beyond ofSlave dev phase s = .ok s' ∧ Turn beyond s s' ∧
      (phase = 0 ∨ pic_i86_mode (s.get dev) = true ∨ phase = 2 → dev = .pic → Fresh s') := by
  have hidle : ∀ own, ∃ s', (cycleData ofSlave dev (isSet ((s.get dev).interrupt &&& 0x40))
      ((s.get dev).interrupt &&& 7).toNat own
      (s.set dev { s.get dev with int_pending := false })).map
        (pic_auto_non_specific_eoi beyond dev) = .ok s' ∧ Turn beyond s s' ∧
      (dev = .pic → Fresh s') := fun own =>
    @from_turn beyond s dev _ _ h (turn_idle dev) (fun hdev => by rw [hdev]; exact fresh_idle s)
      (ended (cycleData_spec own (hslave _ (turn_idle dev))))
  unfold ackCycle
  dsimp only
  by_cases h0 : phase = 0
  · rw [if_pos h0]
    obtain ⟨s', hs', hturn, hfresh⟩ := @from_turn beyond s dev _ _ h (turn_freeze dev)
      (fun hdev => by rw [hdev]; exact fresh_freeze s)
      (cycleData_spec _ (hslave _ (turn_freeze dev)))
    exact ⟨s', hs', hturn, fun _ => hfresh⟩
  · rw [if_neg h0]
    by_cases h86 : pic_i86_mode (s.get dev) = true
    · rw [if_pos h86]
      obtain ⟨s', hs', hturn, hfresh⟩ := hidle _
      exact ⟨s', hs', hturn, fun _ => hfresh⟩
    · rw [if_neg h86]
      by_cases h1 : phase = 1
      · rw [if_pos h1]
        obtain ⟨s', hs', hturn⟩ := cycleData_spec _ (hslave s ⟨.refl beyond s, rfl, rfl, rfl⟩)
        refine ⟨s', hs', hturn, fun hend => ?_⟩
        rcases hend with hend | hend | hend
        · exact absurd hend h0
        · exact absurd hend h86
        · omega
      · rw [if_neg h1]
        by_cases h2 : phase = 2
        · rw [if_pos h2]
          obtain ⟨s', hs', hturn, hfresh⟩ := hidle _
          exact ⟨s', hs', hturn, fun _ => hfresh⟩
        · rw [if_neg h2]
          refine ⟨s, rfl, ⟨.refl beyond s, rfl, rfl, rfl⟩, fun hend => ?_⟩
          rcases hend with hend | hend | hend
          · exact absurd hend h0
          · exact absurd hend h86
          · exact absurd hend h2

/-- The slave of a cycle has no slaves of its own, and is at the input that is marked. -/
theorem ack_read_spec (phase : Nat) (h : Held beyond s) :
    ∃ s', pic_irq_ack_read beyond .pic phase s = .ok s' ∧ Turn beyond s s' ∧
      (phase = 0 ∨ pic_i86_mode s.pic = true ∨ phase = 2 → Fresh s') := by
  obtain ⟨s', hs', hturn, hfresh⟩ := @ackCycle_spec beyond s
    (fun x s => if x = 2 ∧ s.machine.slave2 then
        ackCycle beyond (fun x _ => .error (.noSlave x)) .pic2 phase s
      else .error (.noSlave x)) .pic phase h fun t hturn hmark => by
    obtain ⟨hslave2, hinput⟩ := h.marked ((slaveBit_eq _).symm.trans hmark)
    have ht := hturn.kept.held h
    obtain ⟨t', ht', hrun, -⟩ := @ackCycle_spec beyond t (fun x _ => .error (.noSlave x)) .pic2
      phase ht fun u _ hno =>
        Bool.noConfusion (hno.symm.trans ((slaveBit_eq _).trans ht.single))
    refine ⟨t', ?_, hrun⟩
    rw [if_pos ⟨hinput, hturn.machine ▸ hslave2⟩]
    exact ht'
  exact ⟨s', hs', hturn, fun hend => hfresh hend rfl⟩

/-- The controllers are let go. -/
theorem safe_released {n : Nat} {p2 : Pic} (h : Held beyond s) (hn : n < 3)
    (hi : p2.icw3 = s.pic2.icw3) (hsingle : slaveBit p2.interrupt = false) :
    Safe beyond (update_pending beyond
      { s with pic := { s.pic with ack_bytes := n, interrupt := 0x17 }, pic2 := p2 }) := by
  refine Held.update ⟨h.requests, ?_, h.init, fun hmark => ?_, hsingle, hn⟩
  · dsimp only
    rw [hi]
    exact h.cascade
  · exact Bool.noConfusion (idle_bits.1.symm.trans hmark)

theorem cycleEnd_spec (h : Held beyond s) :
    Held beyond (cycleEnd beyond s) ∧ (Fresh s → Fresh (cycleEnd beyond s)) := by
  have hbytes : (s.pic.ack_bytes + 1) % (if pic_i86_mode s.pic then 2 else 3) < 3 := by
    split_ifs <;> omega
  unfold cycleEnd
  dsimp only
  generalize (s.pic.ack_bytes + 1) % (if pic_i86_mode s.pic then 2 else 3) = n at hbytes ⊢
  by_cases h0 : n = 0
  · rw [if_pos h0]
    by_cases hmark : isSet (s.pic.interrupt &&& 0x40) = true
    · rw [if_pos hmark]
      have hsafe := @safe_released beyond s n { s.pic2 with interrupt := 0x17 } h hbytes rfl
        idle_bits.1
      exact ⟨hsafe.held, fun _ => hsafe.fresh⟩
    · rw [if_neg hmark]
      have hsafe := @safe_released beyond s n s.pic2 h hbytes rfl h.single
      exact ⟨hsafe.held, fun _ => hsafe.fresh⟩
  · rw [if_neg h0]
    exact ⟨⟨h.requests, h.cascade, h.init, h.marked, h.single, hbytes⟩, id⟩

/-- The middle cycle of the three of the 8080 is followed by the last one. -/
theorem cycleEnd_middle (h1 : s.pic.ack_bytes = 1) (h86 : pic_i86_mode s.pic = false) :
    (cycleEnd beyond s).pic.ack_bytes = 2 := by
  unfold cycleEnd
  rw [h1, h86]
  rfl

/-- The count of the cycles goes on, and at its end the next request is looked for. -/
theorem nextCycle_spec (h : Held beyond s) :
    ∃ s', nextCycle beyond s = .ok s' ∧ Held beyond s' ∧
      (Fresh s ∨ s.pic.ack_bytes ≠ 1 ∨ pic_i86_mode s.pic = true → Fresh s') ∧
      (s.pic.ack_bytes = 1 → pic_i86_mode s.pic = false → s'.pic.ack_bytes = 2) := by
  obtain ⟨t, ht, hturn, hfresh⟩ := @ack_read_spec beyond s s.pic.ack_bytes h
  have hmode : pic_i86_mode t.pic = pic_i86_mode s.pic := by
    unfold pic_i86_mode
    rw [hturn.icw4]
  obtain ⟨hheld, hkeep⟩ := cycleEnd_spec (hturn.kept.held h)
  refine ⟨cycleEnd beyond t, ?_, hheld, fun hready => hkeep ?_, fun h1 h86 => ?_⟩
  · unfold nextCycle
    rw [ht]
    rfl
  · have hbytes := h.bytes
    rcases hready with hf | hne | h86
    · exact hturn.kept.fresh h hf
    · exact hfresh (by omega)
    · exact hfresh (Or.inr (Or.inl h86))
  · exact cycleEnd_middle (hturn.bytes.trans h1) (hmode.trans h86)

/-- Two cycles. They end safe, whatever they start from. -/
theorem two_cycles (h : Held beyond s) :
    ∃ t s', nextCycle beyond s = .ok t ∧ nextCycle beyond t = .ok s' ∧ Safe beyond s' := by
  obtain ⟨t, ht, hheld, hfresh, hmiddle⟩ := nextCycle_spec h
  obtain ⟨s', hs', hheld', hfresh', -⟩ := nextCycle_spec hheld
  refine ⟨t, s', ht, hs', hheld', hfresh' ?_⟩
  by_cases hready : s.pic.ack_bytes ≠ 1 ∨ pic_i86_mode s.pic = true
  · exact Or.inl (hfresh (Or.inr hready))
  · have hlast := hmiddle (by omega) (by
      rw [← Bool.not_eq_true]
      exact fun h86 => hready (Or.inr h86))
    exact Or.inr (Or.inl (by omega))

end

/-! ## Runs -/

section

variable {beyond : Nat → BitVec 32} {s : State}

/-- A request that the code takes for a slave's is one of the slave that is there. -/
theorem slave_there (h : Safe beyond s) (hpending : s.pic.int_pending = true)
    (hfrozen : ¬FrozenSlaves s.pic)
    (hon : pic_slave_on beyond s.pic s.pic.interrupt.toNat = true) :
    slaveAt s s.pic.interrupt.toNat = pure s.pic2 ∧ s.machine.slave2 = true ∧
      s.pic.interrupt.toNat = 2 := by
  unfold pic_slave_on at hon
  rw [Bool.and_eq_true, Bool.and_eq_true] at hon
  obtain ⟨⟨hmode, -⟩, hnamed⟩ := hon
  have hicw3 : s.pic.icw3 ≠ 0 := fun h0 => by
    rw [h0] at hnamed
    simp [isSet] at hnamed
  have hthawed : frozen s.pic = false :=
    Bool.eq_false_of_not_eq_true fun hf => hfrozen ⟨hf, hmode, hicw3⟩
  obtain ⟨hlt, hlone⟩ := h.fresh hpending hthawed
  generalize hn : s.pic.interrupt.toNat = n at hlt hlone hnamed
  have hbit : s.pic.icw3.getLsbD n = true := by
    rw [one_shl, if_pos (by omega), ← BitVec.twoPow_eq, isSet_bit,
      BitVec.getLsbD_setWidth] at hnamed
    exact (Bool.and_eq_true _ _ |>.mp hnamed).2
  have hslave : s.machine.slave2 = true ∧ n = 2 := by
    rw [lone, BitVec.getLsbD_and, hbit, Bool.true_and, BitVec.getLsbD_not,
      decide_eq_true hlt, Bool.true_and, Bool.not_eq_false'] at hlone
    cases hs : s.machine.slave2 with
    | true =>
      rw [hs, if_pos rfl, bit, BitVec.getLsbD_twoPow] at hlone
      simp only [Bool.and_eq_true, decide_eq_true_eq] at hlone
      exact ⟨rfl, hlone.2.symm⟩
    | false =>
      rw [hs, if_neg Bool.false_ne_true] at hlone
      simp at hlone
  refine ⟨?_, hslave.1, hslave.2⟩
  unfold slaveAt
  rw [if_pos ⟨hslave.2, hslave.1⟩]

theorem held_mark (h : Held beyond s) (hslave2 : s.machine.slave2 = true)
    (hinput : s.pic.interrupt.toNat = 2) : Held beyond (markSlave s) := by
  have htwo : s.pic.interrupt = 2#8 := BitVec.eq_of_toNat_eq hinput
  refine ⟨h.requests, h.cascade, h.init, fun _ => ⟨hslave2, ?_⟩, h.single, h.bytes⟩
  change ((s.pic.interrupt ||| 0x40) &&& 7).toNat = 2
  rw [htwo]
  rfl

/-- The CPU takes an interrupt: the slave's input is looked at, and the two cycles end. -/
theorem picinterrupt_spec (h : Safe beyond s) (hpending : s.pic.int_pending = true)
    (hfrozen : ¬FrozenSlaves s.pic) :
    ∃ s', picinterrupt beyond s = .ok s' ∧ Safe beyond s' := by
  have hrun : ∀ t, Held beyond t → ∃ s', (do
      let u ← nextCycle beyond t
      nextCycle beyond u) = .ok s' ∧ Safe beyond s' := fun t ht => by
    obtain ⟨u, s', hu, hs', hsafe⟩ := two_cycles ht
    refine ⟨s', ?_, hsafe⟩
    rw [hu]
    exact hs'
  unfold picinterrupt
  rw [if_pos hpending]
  by_cases hon : pic_slave_on beyond s.pic s.pic.interrupt.toNat = true
  · rw [if_pos hon]
    obtain ⟨hthere, hslave2, hinput⟩ := slave_there h hpending hfrozen hon
    rw [hthere, pure_bind]
    cases hp2 : s.pic2.int_pending with
    | true => exact hrun _ (held_mark h.held hslave2 hinput)
    | false =>
      refine hrun { s with pic2 := { s.pic2 with int_pending := true, interrupt := 0x07 } } ?_
      have hsingle : slaveBit 0x07 = false := by decide
      exact ⟨h.held.requests, h.held.cascade, h.held.init, h.held.marked, hsingle, h.held.bytes⟩
  · rw [if_neg hon]
    exact hrun s h.held

/-- One acknowledge cycle. The emulator stops it with an error of its own when the slave has no
request. -/
theorem irq_ack_spec (h : Safe beyond s)
    (hfrozen : s.pic.ack_bytes = 0 ∧ s.pic.int_pending = true → ¬FrozenSlaves s.pic) :
    pic_irq_ack beyond s = .error .fatal ∨
      ∃ s', pic_irq_ack beyond s = .ok s' ∧ Safe beyond s' := by
  unfold pic_irq_ack
  split_ifs with hon
  · obtain ⟨h0, hpending, hon⟩ := hon
    obtain ⟨hthere, hslave2, hinput⟩ := slave_there h hpending (hfrozen ⟨h0, hpending⟩) hon
    rw [hthere, pure_bind]
    cases hp2 : s.pic2.int_pending with
    | true =>
      obtain ⟨s', hs', hheld, hfresh, -⟩ := nextCycle_spec (held_mark h.held hslave2 hinput)
      refine Or.inr ⟨s', ?_, hheld, hfresh (Or.inr (Or.inl ?_))⟩
      · exact hs'
      · change s.pic.ack_bytes ≠ 1
        omega
    | false => exact Or.inl rfl
  · obtain ⟨s', hs', hheld, hfresh, -⟩ := nextCycle_spec h.held
    exact Or.inr ⟨s', hs', hheld, hfresh (Or.inl h.fresh)⟩

/-- One step, whatever it is. Only a slave without a request may stop it. -/
theorem step_ends (op : Op) (h : Safe beyond s) (hmeets : Meets beyond s op) :
    guarded.Ends (step beyond s op) (Safe beyond) (· = .fatal) := by
  cases op with
  | write dev a0 val => exact safe_write dev a0 val h hmeets
  | read dev a0 => exact safe_read dev a0 h
  | elcr_write dev val => exact (kept_elcr_write dev val).safe h
  | picint num level set irq_state => exact safe_picint num level set irq_state h
  | callback => exact h.held.update
  | picinterrupt =>
    unfold step
    by_cases hpending : s.pic.int_pending = true
    · obtain ⟨s', hs', hsafe⟩ := picinterrupt_spec h hpending (hmeets hpending)
      dsimp only
      rw [if_pos hpending, hs']
      exact hsafe
    · dsimp only
      rw [if_neg hpending]
      exact h
  | irq_ack =>
    unfold step
    rcases irq_ack_spec h hmeets with hfatal | ⟨s', hs', hsafe⟩
    · dsimp only
      rw [hfatal]
      exact rfl
    · dsimp only
      rw [hs']
      exact hsafe
  | reset => exact safe_reset beyond s.machine

end

/-- A program that never names an input without a slave while it has a request, and is not
interrupted while it polls, finds each slave that it looks for. -/
theorem every_slave_looked_for_is_there (beyond : Nat → BitVec 32) (machine : Machine)
    (ops : List Op)
    (hmeets : guarded.Along (step beyond) (Meets beyond) (pic_reset machine) ops) (x : Nat) :
    ops.foldlM (step beyond) (pic_reset machine) ≠ .error (.noSlave x) := by
  intro hlost
  have hends := guarded.ends_foldlM (fun s op hs => @step_ends beyond s op hs)
    (safe_reset beyond machine) ops hmeets
  rw [hlost] at hends
  exact Fault.noConfusion (show Fault.noSlave x = Fault.fatal from hends)

/-- An AT of a 286, with both controllers. -/
def at286 : Machine where
  is_at := true
  slave2 := true
  imr_now := true
  shadow := false
  elcr_enabled := false
  pci := false
  irq_vector_override := fun _ => none

/-- Both controllers set up, the slave at input 2. A key and a request of the second controller come
in, and the CPU takes one after the other. -/
def keyThenSlave : List Op :=
  [.write .pic false 0x11, .write .pic true 0x08, .write .pic true 0x04, .write .pic true 0x01,
    .write .pic2 false 0x11, .write .pic2 true 0x70, .write .pic2 true 0x02, .write .pic2 true 0x01,
    .picint 0x0102 false true false, .picinterrupt, .write .pic false 0x20, .picinterrupt]

/-- The slave is looked for, and its request is in service with that of input 2. -/
theorem the_slave_at_input_2_is_found :
    (keyThenSlave.foldlM (step fun _ => 0) (pic_reset at286)).map
        (fun s => (s.pic.isr, s.pic2.isr)) = .ok (0x04, 0x01) ∧
      keyThenSlave.foldlM (step fun _ => 0) (pic_reset at286) ≠ .error (.noSlave 2) := by
  refine ⟨rfl, every_slave_looked_for_is_there _ at286 _ ?_ 2⟩
  refine guarded.along_cons_ok rfl trivial ?_
  refine guarded.along_cons_ok rfl (fun h => InitState.noConfusion h) ?_
  refine guarded.along_cons_ok rfl (fun _ => by decide) ?_
  refine guarded.along_cons_ok rfl (fun h => InitState.noConfusion h) ?_
  refine guarded.along_cons_ok rfl (fun _ _ => by decide) ?_
  refine guarded.along_cons_ok rfl (fun h => InitState.noConfusion h) ?_
  refine guarded.along_cons_ok rfl (fun _ => by decide) ?_
  refine guarded.along_cons_ok rfl (fun h => InitState.noConfusion h) ?_
  refine guarded.along_cons_ok rfl trivial ?_
  refine guarded.along_cons_ok rfl (fun _ => by decide) ?_
  refine guarded.along_cons_ok rfl trivial ?_
  exact guarded.along_cons_ok rfl (fun _ => by decide) guarded.along_nil

/-- A key between ICW1 and ICW3, and ICW3 then names its input: there is no slave. -/
theorem a_slave_is_looked_for_at_the_keyboard :
    ¬∀ (beyond : Nat → BitVec 32) (machine : Machine) (ops : List Op) (x : Nat),
      ops.foldlM (step beyond) (pic_reset machine) ≠ .error (.noSlave x) := fun h =>
  h (fun _ => 0) at286 [.write .pic false 0x11, .write .pic true 0x08,
    .picint 0x0002 false true false, .write .pic true 0x02, .write .pic true 0x01, .callback,
    .picinterrupt] 1 rfl

end blumach.pic_8259
