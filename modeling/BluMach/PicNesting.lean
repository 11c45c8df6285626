-- One controller in the fixed, fully nested mode of an 8086. A request is latched
-- when it is found, and taken later. Between the two only what keeps it before all
-- the interrupts in service may happen.
import BluMach.Nesting
import BluMach.PicSlaves

namespace blumach.pic_8259

/-! ## The mode -/

/-- One controller, of fixed priority and fully nested, with no automatic EOI and no special mask,
between two acknowledges. -/
structure FullyNested (s : State) : Prop where
  one : s.machine.is_at = false
  alone : pic_cascade_mode s.pic = true → s.pic.icw3 = 0
  ready : s.pic.state = .STATE_NONE
  fixed : s.pic.priority = 0
  no_mask : s.pic.special_mask_mode = false
  no_aeoi : isSet (s.pic.icw4 &&& 2) = false
  whole : s.pic.ack_bytes = 0
  thawed : frozen s.pic = false
  unmarked : slaveBit s.pic.interrupt = false

/-- A request that is pending comes before all that is in service. -/
def Latched (p : Pic) : Prop :=
  p.int_pending = true → p.interrupt.toNat < 8 ∧
    ∀ i, p.isr.getLsbD i = true → p.interrupt.toNat < i

/-- What the nesting depends on. -/
def core (p : Pic) : Pic :=
  { p with imr := 0, irr := 0, ocw2 := 0, data_bus := 0, lines := fun _ => 0 }

/-- A step that only touches the requests, the masks and the lines. -/
structure Calm (s s' : State) : Prop where
  machine : s'.machine = s.machine
  pic : core s'.pic = core s.pic

section

variable {beyond : Nat → BitVec 32} {s s' s'' : State}

theorem Calm.refl (s : State) : Calm s s := ⟨rfl, rfl⟩

theorem Calm.trans (h : Calm s s') (h' : Calm s' s'') : Calm s s'' :=
  ⟨h'.machine.trans h.machine, h'.pic.trans h.pic⟩

theorem Calm.field {α : Type} (h : Calm s s') (f : Pic → α) (hf : ∀ p, f (core p) = f p) :
    f s'.pic = f s.pic := by
  rw [← hf, h.pic, hf]

theorem Calm.isr (h : Calm s s') : s'.pic.isr = s.pic.isr := h.field Pic.isr fun _ => rfl

theorem Calm.icw4 (h : Calm s s') : s'.pic.icw4 = s.pic.icw4 := h.field Pic.icw4 fun _ => rfl

theorem Calm.interrupt (h : Calm s s') : s'.pic.interrupt = s.pic.interrupt :=
  h.field Pic.interrupt fun _ => rfl

theorem Calm.latched (h : Calm s s') (hs : Latched s.pic) : Latched s'.pic := by
  have hpending : s'.pic.int_pending = s.pic.int_pending := h.field Pic.int_pending fun _ => rfl
  unfold Latched
  rw [hpending, h.interrupt, h.isr]
  exact hs

theorem Calm.fullyNested (h : Calm s s') (hs : FullyNested s) : FullyNested s' where
  one := (congrArg Machine.is_at h.machine).trans hs.one
  alone := by
    have hicw1 : s'.pic.icw1 = s.pic.icw1 := h.field Pic.icw1 fun _ => rfl
    have hicw3 : s'.pic.icw3 = s.pic.icw3 := h.field Pic.icw3 fun _ => rfl
    unfold pic_cascade_mode
    rw [hicw1, hicw3]
    exact hs.alone
  ready := (h.field Pic.state fun _ => rfl).trans hs.ready
  fixed := (h.field Pic.priority fun _ => rfl).trans hs.fixed
  no_mask := (h.field Pic.special_mask_mode fun _ => rfl).trans hs.no_mask
  no_aeoi := by
    rw [h.icw4]
    exact hs.no_aeoi
  whole := (h.field Pic.ack_bytes fun _ => rfl).trans hs.whole
  thawed := by
    rw [frozen_eq, h.interrupt, ← frozen_eq]
    exact hs.thawed
  unmarked := by
    rw [h.interrupt]
    exact hs.unmarked

/-! ## Looking for a request -/

/-- The request that is found comes before all that is in service. -/
theorem bestOf_first {dev : Pic} (hfixed : dev.priority = 0) {j : Nat} {l : List Nat}
    (hl : l.Pairwise (· < ·)) (h8 : ∀ i ∈ l, i < 8) (h : bestOf dev l = some j) :
    ∀ i ∈ l, i ≤ j → dev.isr.getLsbD i = false := by
  induction l with
  | nil => cases h
  | cons i rest ih =>
    obtain ⟨hfirst, hrest⟩ := List.pairwise_cons.mp hl
    have hi : (i + dev.priority) % 8 = i := by
      rw [hfixed]
      exact Nat.mod_eq_of_lt (h8 i List.mem_cons_self)
    unfold bestOf at h
    dsimp only at h
    rw [hi, bit, isSet_bit] at h
    split_ifs at h with hisr hreq
    · obtain rfl := Option.some.inj h
      intro k hk hle
      rcases List.mem_cons.mp hk with rfl | hk
      · exact Bool.eq_false_of_not_eq_true hisr
      · exact absurd (hfirst k hk) (Nat.not_lt.mpr hle)
    · intro k hk hle
      rcases List.mem_cons.mp hk with rfl | hk
      · exact Bool.eq_false_of_not_eq_true hisr
      · exact ih hrest (fun i hi => h8 i (List.mem_cons_of_mem _ hi)) h k hk hle

theorem findPending_thawed (dev : Pic) : frozen (findPending dev) = false := by
  rw [frozen_eq]
  unfold findPending find_best_interrupt
  cases h : bestOf dev (List.range 8) with
  | none => exact idle_bits.2
  | some j =>
    obtain ⟨-, hj, -⟩ := bestOf_spec h
    change (BitVec.ofNat 8 j).getLsbD 5 = false
    rw [BitVec.getLsbD, BitVec.toNat_ofNat, Nat.mod_eq_of_lt (by omega)]
    exact Nat.testBit_lt_two_pow (by omega)

theorem findPending_latched {dev : Pic} (hfixed : dev.priority = 0) :
    Latched (findPending dev) := by
  unfold findPending find_best_interrupt
  cases h : bestOf dev (List.range 8) with
  | none => exact nofun
  | some j =>
    intro _
    obtain ⟨-, hj, -⟩ := bestOf_spec h
    have hto : (BitVec.ofNat 8 j).toNat = j := by
      rw [BitVec.toNat_ofNat]
      exact Nat.mod_eq_of_lt (by omega)
    change (BitVec.ofNat 8 j).toNat < 8 ∧ ∀ i, dev.isr.getLsbD i = true →
      (BitVec.ofNat 8 j).toNat < i
    rw [hto]
    refine ⟨hj, fun i hi => ?_⟩
    by_contra hle
    have hclear := bestOf_first hfixed List.pairwise_lt_range (fun k hk => List.mem_range.mp hk) h i
      (List.mem_range.mpr (BitVec.lt_of_getLsbD hi)) (Nat.not_lt.mp hle)
    rw [hi] at hclear
    cases hclear

theorem findPending_keeps (dev : Pic) :
    (findPending dev).icw1 = dev.icw1 ∧ (findPending dev).priority = dev.priority ∧
      (findPending dev).special_mask_mode = dev.special_mask_mode ∧
      (findPending dev).isr = dev.isr := by
  unfold findPending find_best_interrupt
  cases bestOf dev (List.range 8) <;> exact ⟨rfl, rfl, rfl, rfl⟩

theorem update_alone (hone : s.machine.is_at = false) (hthawed : frozen s.pic = false) :
    update_pending beyond s = { s with pic := findPending s.pic } := by
  unfold update_pending pic_update_pending_xt
  rw [hone, hthawed, if_neg Bool.false_ne_true, if_neg Bool.false_ne_true]

/-- Looking for a request latches one that comes before all that is in service. -/
theorem FullyNested.update (h : FullyNested s) :
    FullyNested (update_pending beyond s) ∧ Latched (update_pending beyond s).pic ∧
      (update_pending beyond s).pic.isr = s.pic.isr ∧
      (update_pending beyond s).pic.icw4 = s.pic.icw4 := by
  obtain ⟨hicw3, -, hstate, hbytes, hicw4, hmark, -⟩ := findPending_spec s.pic
  obtain ⟨hicw1, hpriority, hmask, hisr⟩ := findPending_keeps s.pic
  rw [update_alone h.one h.thawed]
  refine ⟨⟨h.one, ?_, hstate.trans h.ready, hpriority.trans h.fixed, hmask.trans h.no_mask, ?_,
    hbytes.trans h.whole, findPending_thawed s.pic, hmark⟩, findPending_latched h.fixed, hisr,
      hicw4⟩
  · dsimp only
    unfold pic_cascade_mode
    rw [hicw1, hicw3]
    exact h.alone
  · dsimp only
    rw [hicw4]
    exact h.no_aeoi

/-! ## Requests and masks -/

theorem calm_drive (set irq_state : Bool) (num : BitVec 16) (l : List Nat)
    (acc : State × BitVec 16) (h : Calm s acc.1) :
    Calm s (l.foldl (drive s.machine set irq_state num) acc).1 := by
  induction l generalizing acc with
  | nil => exact h
  | cons i rest ih =>
    rw [List.foldl_cons]
    apply ih
    obtain ⟨t, lines⟩ := acc
    unfold drive
    dsimp only
    by_cases hnum : isSet (num &&& BitVec.twoPow 16 i) = true
    · rw [if_pos hnum]
      refine h.trans ?_
      by_cases h8 : i < 8
      · rw [if_pos h8]
        exact ⟨rfl, rfl⟩
      · rw [if_neg h8]
        exact ⟨rfl, rfl⟩
    · rw [if_neg hnum]
      exact h

/-- A step that touches no more than the requests, and may then look for one. -/
def Looks (beyond : Nat → BitVec 32) (s s' : State) : Prop :=
  ∃ u, Calm s u ∧ (s' = u ∨ s' = update_pending beyond u)

theorem looks_request (set : Bool) (slaves : Nat) (num : BitVec 16) (h : Calm s s') :
    Looks beyond s (requestLines beyond set slaves num s') := by
  unfold requestLines
  generalize (if slaves = 0 then num &&& 0x00ff else num) = num
  dsimp only
  by_cases h0 : num = 0
  · rw [if_pos h0]
    exact ⟨s', h, Or.inl rfl⟩
  · rw [if_neg h0]
    refine ⟨_, h.trans ?_, Or.inr rfl⟩
    split_ifs
    · exact ⟨rfl, rfl⟩
    · exact ⟨rfl, rfl⟩

theorem looks_picint (num : BitVec 16) (level set irq_state : Bool) :
    Looks beyond s (picint_common beyond num level set irq_state s) := by
  unfold picint_common
  generalize withoutSlaves s.machine.is_at s.pic.icw3 num = first
  obtain ⟨num, slaves⟩ := first
  dsimp only
  by_cases h0 : num = 0
  · rw [if_pos h0]
    exact ⟨s, .refl s, Or.inl rfl⟩
  · rw [if_neg h0]
    cases level with
    | true => exact looks_request _ _ _ (calm_drive _ _ _ _ (s, 0) (.refl s))
    | false => exact looks_request _ _ _ (.refl s)

theorem looks_mask (val : BitVec 8) (h : s.pic.state = .STATE_NONE) :
    Looks beyond s (pic_write beyond .pic true val s) := by
  have hcalm : Calm s (s.set .pic { s.pic with data_bus := val, imr := val }) := ⟨rfl, rfl⟩
  unfold pic_write
  dsimp only
  rw [if_pos rfl]
  split
  · rename_i hstate
    cases h.symm.trans hstate
  · rename_i hstate
    cases h.symm.trans hstate
  · rename_i hstate
    cases h.symm.trans hstate
  · split_ifs
    · exact ⟨_, hcalm, Or.inr rfl⟩
    · exact ⟨_, hcalm, Or.inl rfl⟩

/-! ## The acknowledge and the end -/

/-- The first of the two cycles puts the interrupt in service. -/
theorem first_cycle (hbytes : s.pic.ack_bytes = 0) (h86 : pic_i86_mode s.pic = true)
    (hmark : slaveBit s.pic.interrupt = false) :
    ∃ irr v, nextCycle beyond s = .ok
      { s with
        pic :=
          { s.pic with
            isr := s.pic.isr ||| bit (s.pic.interrupt &&& 7).toNat
            irr := irr
            interrupt := s.pic.interrupt ||| 0x20
            data_bus := v
            ack_bytes := 1 } } := by
  have hslave : isSet (s.pic.interrupt &&& 0x40) = false := (slaveBit_eq _).trans hmark
  unfold nextCycle pic_irq_ack_read ackCycle cycleData
  rw [hbytes]
  simp only [State.get, State.set, if_true, hslave, Bool.false_eq_true, if_false, Except.map]
  unfold cycleEnd pic_acknowledge
  have hmode : ∀ p : Pic, p.icw4 = s.pic.icw4 → pic_i86_mode p = true := fun p hp => by
    rw [pic_i86_mode, hp]
    exact h86
  simp only [hmode, input_freeze, hbytes]
  exact ⟨_, _, rfl⟩

/-- The second one lets the controller go, and looks for the next request. -/
theorem second_cycle (hbytes : s.pic.ack_bytes = 1) (h86 : pic_i86_mode s.pic = true)
    (hmark : slaveBit s.pic.interrupt = false) (haeoi : isSet (s.pic.icw4 &&& 2) = false) :
    ∃ v, nextCycle beyond s = .ok (update_pending beyond
      { s with
        pic :=
          { s.pic with
            int_pending := false
            data_bus := v
            ack_bytes := 0
            interrupt := 0x17 } }) := by
  have hslave : isSet (s.pic.interrupt &&& 0x40) = false := (slaveBit_eq _).trans hmark
  unfold nextCycle pic_irq_ack_read ackCycle cycleData
  rw [hbytes]
  simp only [State.get, State.set, Nat.one_ne_zero, if_false, h86, if_true, hslave,
    Bool.false_eq_true, Except.map]
  unfold pic_auto_non_specific_eoi cycleEnd
  have hmode : ∀ p : Pic, p.icw4 = s.pic.icw4 → pic_i86_mode p = true := fun p hp => by
    rw [pic_i86_mode, hp]
    exact h86
  simp only [State.get, haeoi, Bool.false_eq_true, if_false, hmode, hbytes, hslave]
  exact ⟨_, rfl⟩

/-- What holds between two steps. -/
structure Settled (s : State) : Prop where
  nested : FullyNested s
  i86 : pic_i86_mode s.pic = true
  latched : Latched s.pic

theorem FullyNested.settled (h : FullyNested s) (h86 : pic_i86_mode s.pic = true) :
    Settled (update_pending beyond s) ∧ (update_pending beyond s).pic.isr = s.pic.isr := by
  obtain ⟨hnested, hlatched, hisr, hicw4⟩ := @FullyNested.update beyond s h
  refine ⟨⟨hnested, ?_, hlatched⟩, hisr⟩
  rw [pic_i86_mode, hicw4]
  exact h86

theorem Looks.settled (h : Looks beyond s s') (hs : Settled s) :
    Settled s' ∧ s'.pic.isr = s.pic.isr := by
  obtain ⟨u, hcalm, hs'⟩ := h
  have hnested := hcalm.fullyNested hs.nested
  have h86 : pic_i86_mode u.pic = true := by
    rw [pic_i86_mode, hcalm.icw4]
    exact hs.i86
  rcases hs' with rfl | rfl
  · exact ⟨⟨hnested, h86, hcalm.latched hs.latched⟩, hcalm.isr⟩
  · obtain ⟨hsettled, hisr⟩ := @FullyNested.settled beyond u hnested h86
    exact ⟨hsettled, hisr.trans hcalm.isr⟩

theorem no_slave_on (h : FullyNested s) (channel : Nat) :
    pic_slave_on beyond s.pic channel = false := by
  unfold pic_slave_on
  cases hmode : pic_cascade_mode s.pic with
  | false => rfl
  | true =>
    rw [h.alone hmode]
    simp [isSet]

/-- The CPU takes the interrupt that is latched. -/
theorem take_spec (h : Settled s) (hpending : s.pic.int_pending = true) :
    ∃ s', picinterrupt beyond s = .ok s' ∧ Settled s' ∧
      s'.pic.isr = s.pic.isr ||| bit (s.pic.interrupt &&& 7).toNat := by
  obtain ⟨irr, v, hfirst⟩ := @first_cycle beyond s h.nested.whole h.i86 h.nested.unmarked
  unfold picinterrupt
  rw [if_pos hpending, no_slave_on h.nested, if_neg Bool.false_ne_true]
  simp only [pure_bind]
  rw [hfirst]
  obtain ⟨v', hsecond⟩ := @second_cycle beyond
    { s with
      pic :=
        { s.pic with
          isr := s.pic.isr ||| bit (s.pic.interrupt &&& 7).toNat
          irr := irr
          interrupt := s.pic.interrupt ||| 0x20
          data_bus := v
          ack_bytes := 1 } } rfl h.i86 (slaveBit_freeze.trans h.nested.unmarked) h.nested.no_aeoi
  have hready : FullyNested
      { s with
        pic :=
          { s.pic with
            isr := s.pic.isr ||| bit (s.pic.interrupt &&& 7).toNat
            irr := irr
            interrupt := 0x17
            int_pending := false
            data_bus := v'
            ack_bytes := 0 } } :=
    ⟨h.nested.one, h.nested.alone, h.nested.ready, h.nested.fixed, h.nested.no_mask,
      h.nested.no_aeoi, rfl, (frozen_eq _).trans idle_bits.2, idle_bits.1⟩
  obtain ⟨hsettled, hisr⟩ := @FullyNested.settled beyond _ hready h.i86
  exact ⟨_, hsecond, hsettled, hisr⟩

/-- Without a special mask and a rotation, the interrupt to end is the first in service. -/
theorem non_specific_first {p : Pic} (hfixed : p.priority = 0)
    (hmask : p.special_mask_mode = false) :
    match pic_non_specific_find p with
    | some m => p.isr.getLsbD m = true ∧ ∀ i, p.isr.getLsbD i = true → m ≤ i
    | none => ∀ i, p.isr.getLsbD i = false := by
  have hrange : ((List.range 8).map fun i => (i + p.priority) % 8) = List.range 8 := by
    rw [hfixed]
    rfl
  have hfind : pic_non_specific_find p = (List.range 8).find? fun j => p.isr.getLsbD j := by
    unfold pic_non_specific_find
    rw [hrange]
    simp only [bit, isSet_bit, hmask, Bool.not_false, Bool.true_or, Bool.and_true]
  rw [hfind]
  cases hm : (List.range 8).find? fun j => p.isr.getLsbD j with
  | none =>
    rw [List.find?_range_eq_none] at hm
    intro i
    by_contra hbit
    have hset := Bool.eq_true_of_not_eq_false hbit
    simpa [hset] using hm i (BitVec.lt_of_getLsbD hset)
  | some m =>
    obtain ⟨hset, -, hbefore⟩ := List.find?_range_eq_some.mp hm
    refine ⟨hset, fun i hi => ?_⟩
    by_contra hlt
    simpa [hi] using hbefore i (Nat.not_le.mp hlt)

/-- A non-specific EOI, with any level in its low bits. -/
def eoiCommand (low : BitVec 3) : BitVec 8 := 0x20 ||| low.setWidth 8

theorem eoiCommand_bits (low : BitVec 3) :
    isSet (eoiCommand low &&& 0x10) = false ∧ isSet (eoiCommand low &&& 0x08) = false ∧
      isSet (eoiCommand low &&& 0x60) = true ∧ isSet (eoiCommand low &&& 0x40) = false ∧
      isSet (eoiCommand low &&& 0x20) = true ∧ isSet (eoiCommand low &&& 0x80) = false := by
  revert low
  decide

/-- The end of an interrupt takes the first one out of service. -/
theorem eoi_spec (h : Settled s) (low : BitVec 3) :
    Settled (pic_write beyond .pic false (eoiCommand low) s) ∧
      (pic_write beyond .pic false (eoiCommand low) s).pic.isr =
        match pic_non_specific_find s.pic with
        | some m => s.pic.isr &&& ~~~bit m
        | none => s.pic.isr := by
  obtain ⟨hicw1, hocw3, hcommand, hspecific, heoi, hrotate⟩ := eoiCommand_bits low
  unfold pic_write
  simp only [Bool.false_eq_true, if_false, hicw1, hocw3]
  unfold pic_command
  simp only [State.get, State.set, hcommand, if_true, hspecific, Bool.false_eq_true, if_false, heoi,
    hrotate]
  have hfind : pic_non_specific_find
      { s.pic with data_bus := eoiCommand low, ocw2 := eoiCommand low } =
        pic_non_specific_find s.pic := rfl
  rw [hfind]
  have hcalm : Calm s { s with
      pic := { s.pic with data_bus := eoiCommand low, ocw2 := eoiCommand low } } := ⟨rfl, rfl⟩
  cases hm : pic_non_specific_find s.pic with
  | none =>
    unfold pic_action
    exact @Looks.settled beyond _ _ ⟨_, hcalm, Or.inl rfl⟩ h
  | some m =>
    unfold pic_action
    simp only [State.get, State.set, if_true, Bool.false_eq_true, if_false]
    have hn := h.nested
    have hended : FullyNested { s with
        pic :=
          { s.pic with
            isr := s.pic.isr &&& ~~~bit m
            data_bus := eoiCommand low
            ocw2 := eoiCommand low } } :=
      ⟨hn.one, hn.alone, hn.ready, hn.fixed, hn.no_mask, hn.no_aeoi, hn.whole, hn.thawed,
        hn.unmarked⟩
    exact hended.settled h.i86

end

/-! ## Runs -/

/-- What the devices, the guest and the CPU do in this mode. The CPU takes an interrupt only while
one is pending. -/
inductive NestOp where
  | request (num : BitVec 16) (level set irq_state : Bool)
  | mask (val : BitVec 8)
  | callback
  | take
  | eoi (low : BitVec 3)

def NestOp.op : NestOp → Op
  | .request num level set irq_state => .picint num level set irq_state
  | .mask val => .write .pic true val
  | .callback => .callback
  | .take => .picinterrupt
  | .eoi low => .write .pic false (eoiCommand low)

/-- The controller, and the interrupts that the CPU ever took, the latest first. -/
structure Traced where
  chips : State
  taken : List Nat

def Traced.step (beyond : Nat → BitVec 32) (t : Traced) (op : NestOp) : Except Fault Traced :=
  (pic_8259.step beyond t.chips op.op).map fun chips =>
    { chips := chips
      taken := match op with
        | .take =>
          if t.chips.pic.int_pending then (t.chips.pic.interrupt &&& 7).toNat :: t.taken
          else t.taken
        | _ => t.taken }

/-- The interrupts in service. -/
def Traced.inService (t : Traced) (irq : Nat) : Bool := t.chips.pic.isr.getLsbD irq

/-- The interrupt that the CPU takes comes before all that are in service, and is then in service
too. An EOI ends the one of those in service that was taken last, and no other. -/
def Nested (t : Traced) (op : NestOp) (t' : Traced) : Prop :=
  match op with
  | .take => t.chips.pic.int_pending = true →
    (∀ irq, t.inService irq = true → (t.chips.pic.interrupt &&& 7).toNat < irq) ∧
      t'.chips.pic.isr = t.chips.pic.isr ||| bit (t.chips.pic.interrupt &&& 7).toNat
  | .eoi _ => t'.chips.pic.isr =
    match t.taken.find? t.inService with
    | some irq => t.chips.pic.isr &&& ~~~bit irq
    | none => t.chips.pic.isr
  | _ => t'.chips.pic.isr = t.chips.pic.isr

/-- The step comes to an end, as a stack does. -/
def Nests (beyond : Nat → BitVec 32) (t : Traced) (op : NestOp) : Prop :=
  ∃ t', t.step beyond op = .ok t' ∧ Nested t op t'

structure Stack (t : Traced) : Prop where
  settled : Settled t.chips
  stacked : nesting.Stacked t.inService t.taken

section

variable {beyond : Nat → BitVec 32} {t : Traced}

/-- A step that leaves the service alone. -/
theorem Stack.same (h : Stack t) {s' : State} (hs : Settled s' ∧ s'.pic.isr = t.chips.pic.isr) :
    Stack ⟨s', t.taken⟩ := by
  refine ⟨hs.1, h.stacked.finish fun irq hirq => ?_⟩
  unfold Traced.inService at hirq ⊢
  rwa [hs.2] at hirq

/-- The EOI ends what was taken last. -/
theorem non_specific_latest (h : Stack t) :
    t.taken.find? t.inService = pic_non_specific_find t.chips.pic := by
  have hfirst := non_specific_first h.settled.nested.fixed h.settled.nested.no_mask
  cases hm : pic_non_specific_find t.chips.pic with
  | none =>
    rw [hm] at hfirst
    exact nesting.latest_idle hfirst t.taken
  | some m =>
    rw [hm] at hfirst
    exact h.stacked.latest hfirst.1 hfirst.2

theorem stack_step (h : Stack t) (op : NestOp) :
    ∃ t', t.step beyond op = .ok t' ∧ Stack t' ∧ Nests beyond t op := by
  have hdone : ∀ t', t.step beyond op = .ok t' → Stack t' → Nested t op t' →
      ∃ t', t.step beyond op = .ok t' ∧ Stack t' ∧ Nests beyond t op := fun t' ht hstack hnested =>
    ⟨t', ht, hstack, t', ht, hnested⟩
  cases op with
  | request num level set irq_state =>
    have hs := (@looks_picint beyond t.chips num level set irq_state).settled h.settled
    exact hdone _ rfl (h.same hs) hs.2
  | mask val =>
    have hs := (@looks_mask beyond t.chips val h.settled.nested.ready).settled h.settled
    exact hdone _ rfl (h.same hs) hs.2
  | callback =>
    have hs := @FullyNested.settled beyond _ h.settled.nested h.settled.i86
    exact hdone _ rfl (h.same hs) hs.2
  | take =>
    cases hpending : t.chips.pic.int_pending with
    | false =>
      refine hdone ⟨t.chips, t.taken⟩ ?_ h fun hno => Bool.noConfusion (hpending.symm.trans hno)
      simp [Traced.step, NestOp.op, step, hpending, Except.map]
    | true =>
      obtain ⟨s', hs', hsettled, hisr⟩ := @take_spec beyond _ h.settled hpending
      obtain ⟨hlt, hfirst⟩ := h.settled.latched hpending
      have hirq : (t.chips.pic.interrupt &&& 7).toNat = t.chips.pic.interrupt.toNat := by
        rw [BitVec.toNat_and]
        exact (Nat.and_two_pow_sub_one_eq_mod _ 3).trans (Nat.mod_eq_of_lt hlt)
      rw [← hirq] at hfirst
      refine hdone ⟨s', (t.chips.pic.interrupt &&& 7).toNat :: t.taken⟩ ?_ ⟨hsettled, ?_⟩
        fun _ => ⟨hfirst, hisr⟩
      · simp [Traced.step, NestOp.op, step, hpending, hs', Except.map]
      · refine h.stacked.begin hfirst fun irq hnew => ?_
        unfold Traced.inService at hnew ⊢
        rw [hisr, BitVec.getLsbD_or, Bool.or_eq_true, bit, BitVec.getLsbD_twoPow] at hnew
        rcases hnew with hold | hnew
        · exact Or.inr hold
        · simp only [Bool.and_eq_true, decide_eq_true_eq] at hnew
          exact Or.inl hnew.2.symm
  | eoi low =>
    obtain ⟨hsettled, hisr⟩ := @eoi_spec beyond _ h.settled low
    rw [← non_specific_latest h] at hisr
    refine hdone ⟨_, t.taken⟩ rfl ⟨hsettled, h.stacked.finish fun irq hold => ?_⟩ hisr
    unfold Traced.inService at hold
    dsimp only at hold
    rw [hisr] at hold
    cases hm : t.taken.find? t.inService with
    | none =>
      rw [hm] at hold
      exact hold
    | some m =>
      rw [hm] at hold
      dsimp only at hold
      rw [BitVec.getLsbD_and, Bool.and_eq_true] at hold
      exact hold.1

end

/-- From a controller in this mode with nothing in service, whatever the devices, the guest and the
CPU do in turn: the CPU takes only what comes before all that is in service, and an EOI ends what
it took last. -/
theorem interrupts_nest_as_a_stack (beyond : Nat → BitVec 32) {s : State} (hnested : FullyNested s)
    (h86 : pic_i86_mode s.pic = true) (hisr : s.pic.isr = 0)
    (hfound : s.pic.int_pending = true → s.pic.interrupt.toNat < 8) (ops : List NestOp) :
    (∃ t, ops.foldlM (Traced.step beyond) ⟨s, []⟩ = .ok t) ∧
      guarded.Along (Traced.step beyond) (Nests beyond) ⟨s, []⟩ ops := by
  have hidle : ∀ irq, s.pic.isr.getLsbD irq = false := fun irq => by
    rw [hisr]
    exact BitVec.getLsbD_zero
  have hstart : Stack ⟨s, []⟩ :=
    ⟨⟨hnested, h86, fun hpending => ⟨hfound hpending, fun irq hirq =>
      absurd hirq (by simp [hidle irq])⟩⟩, nesting.stacked_idle hidle []⟩
  exact guarded.along_of_steps (fun t op ht => stack_step ht op) hstart ops

/-- An XT, with one controller. -/
def xt : Machine := { at286 with is_at := false, slave2 := false }

/-- One controller as ICW1 sets it up, by itself. -/
def alone (icw1 icw4 : BitVec 8) : State where
  pic := { cleared true with icw1 := icw1, icw4 := icw4 }
  pic2 := cleared false
  machine := xt

theorem alone_nested (icw1 : BitVec 8) (icw4 : BitVec 8) (h : isSet (icw4 &&& 2) = false) :
    FullyNested (alone icw1 icw4) :=
  ⟨rfl, fun _ => rfl, rfl, rfl, rfl, h, rfl, (frozen_eq _).trans idle_bits.2, idle_bits.1⟩

/-- The key comes while IRQ 3 is in service, and its EOI comes first. -/
theorem a_key_nests :
    guarded.Along (Traced.step fun _ => 0) (Nests fun _ => 0) ⟨alone 0x13 0x01, []⟩
      [.request 0x0008 false true false, .take, .request 0x0002 false true false, .take, .eoi 0,
        .eoi 0] :=
  (interrupts_nest_as_a_stack (fun _ => 0) (alone_nested 0x13 0x01 (by decide)) (by decide) rfl
    nofun _).2

/-- Without ICW4 the controller waits for a third cycle: a second interrupt finds IRQ 3 still
pending, and puts IRQ 7 in service over it. -/
theorem two_cycles_of_an_8080_do_not_nest :
    ¬∀ (s : State) (ops : List NestOp), FullyNested s → s.pic.isr = 0 →
      (s.pic.int_pending = true → s.pic.interrupt.toNat < 8) →
      guarded.Along (Traced.step fun _ => 0) (Nests fun _ => 0) ⟨s, []⟩ ops := by
  intro h
  obtain ⟨t', ht', hnested⟩ := h (alone 0x12 0x00)
    [.request 0x0008 false true false, .take, .take] (alone_nested 0x12 0x00 (by decide)) rfl nofun
    [.request 0x0008 false true false, .take] .take [] rfl _ rfl
  exact absurd ((hnested rfl).1 3 rfl) (by decide)

end blumach.pic_8259
