-- The flags that say that a request is pending. They hold what a look at the registers
-- found, so each change of the registers has to look again, and some do not: the
-- byte that ends the setup of a controller, the cascade input of the second one, and
-- the end of a poll that finds nothing.
import BluMach.PicCascade
import BluMach.PicFrames

namespace blumach.pic_8259

/-! ## What the flags stand for -/

/-- What `find_best_interrupt` says of a controller: it has an unmasked request that comes before
all that is in service. -/
def finds (p : Pic) : Bool := (bestOf p (List.range 8)).isSome

/-- The registers that it looks at. -/
def regs (p : Pic) : InitState × BitVec 8 × BitVec 8 × BitVec 8 × Nat :=
  (p.state, p.irr, p.imr, p.isr, p.priority)

/-- The first controller, with the request of the second one. -/
def cascaded (beyond : Nat → BitVec 32) (pic2 pic : Pic) : Pic :=
  let b := (one_shl beyond pic2.icw3.toNat).setWidth 8
  { pic with irr := if finds pic2 then pic.irr ||| b else pic.irr &&& ~~~b }

/-- While no acknowledge and no poll is on, the flags are what a look at the registers finds. -/
def UpToDate (beyond : Nat → BitVec 32) (s : State) : Prop :=
  frozen s.pic = false →
    s.pic2.int_pending = (update_pending beyond s).pic2.int_pending ∧
      s.pic.int_pending = (update_pending beyond s).pic.int_pending

/-- A board of an AT with a 286. -/
structure Board (s : State) : Prop where
  is_at : s.machine.is_at = true
  imr_now : s.machine.imr_now = true
  bytes : s.pic.ack_bytes < 3

section

variable {beyond : Nat → BitVec 32} {s s' : State}

theorem bestOf_congr {p p' : Pic} (h : regs p' = regs p) (l : List Nat) :
    bestOf p' l = bestOf p l := by
  simp only [regs, Prod.mk.injEq] at h
  obtain ⟨hstate, hirr, himr, hisr, hpriority⟩ := h
  induction l with
  | nil => rfl
  | cons i rest ih =>
    unfold bestOf
    simp only [hstate, hirr, himr, hisr, hpriority, ih]

theorem finds_congr {p p' : Pic} (h : regs p' = regs p) : finds p' = finds p := by
  unfold finds
  rw [bestOf_congr h]

theorem finds_setup {p : Pic} (h : p.state ≠ .STATE_NONE) : finds p = false := by
  unfold finds
  cases hbest : bestOf p (List.range 8) with
  | none => rfl
  | some j => exact absurd (bestOf_spec hbest).1 h

theorem cascaded_congr {pic2 pic2' pic pic' : Pic} (h2 : regs pic2' = regs pic2)
    (hicw3 : pic2'.icw3 = pic2.icw3) (h : regs pic' = regs pic) :
    finds (cascaded beyond pic2' pic') = finds (cascaded beyond pic2 pic) := by
  apply finds_congr
  simp only [regs, Prod.mk.injEq] at h
  obtain ⟨hstate, hirr, himr, hisr, hpriority⟩ := h
  unfold cascaded
  simp only [regs, finds_congr h2, hicw3, hstate, hirr, himr, hisr, hpriority]

theorem cascaded_idle {pic2 : Pic} (h : finds pic2 = false) (pic : Pic) :
    cascaded beyond pic2 pic =
      { pic with irr := pic.irr &&& ~~~((one_shl beyond pic2.icw3.toNat).setWidth 8) } := by
  unfold cascaded
  rw [h]
  rfl

theorem findPending_regs (p : Pic) : regs (findPending p) = regs p := by
  unfold findPending find_best_interrupt
  cases bestOf p (List.range 8) <;> rfl

theorem update_thawed (hat : s.machine.is_at = true) (hthawed : frozen s.pic = false) :
    update_pending beyond s =
      { s with pic := findPending (cascaded beyond s.pic2 s.pic), pic2 := findPending s.pic2 } := by
  obtain ⟨hicw3, -⟩ := findPending_spec s.pic2
  unfold update_pending pic_update_pending_at
  rw [if_pos hat, hthawed, if_neg Bool.false_ne_true]
  dsimp only
  rw [hicw3, findPending_pending]
  rfl

theorem upToDate_iff (hat : s.machine.is_at = true) :
    UpToDate beyond s ↔ (frozen s.pic = false →
      s.pic2.int_pending = finds s.pic2 ∧
      s.pic.int_pending = finds (cascaded beyond s.pic2 s.pic)) := by
  unfold UpToDate
  apply imp_congr_right
  intro hthawed
  rw [update_thawed hat hthawed, findPending_pending, findPending_pending]
  rfl

/-- A look at the registers brings the flags up to date. -/
theorem upToDate_update (hat : s.machine.is_at = true) :
    UpToDate beyond (update_pending beyond s) := by
  cases hf : frozen s.pic with
  | true =>
    intro hthawed
    rw [updated_frozen hat hf, hf] at hthawed
    cases hthawed
  | false =>
    rw [update_thawed hat hf]
    refine (upToDate_iff ?_).mpr fun _ => ?_
    · exact hat
    obtain ⟨hicw3, -⟩ := findPending_spec s.pic2
    dsimp only
    rw [cascaded_congr (findPending_regs s.pic2) hicw3 (findPending_regs _),
      finds_congr (findPending_regs s.pic2), findPending_pending, findPending_pending]
    refine ⟨rfl, finds_congr ?_⟩
    -- the request of the slave is there already
    unfold cascaded regs
    dsimp only
    cases finds s.pic2 with
    | true => simp [BitVec.or_assoc]
    | false => simp [BitVec.and_assoc]

theorem update_board (h : Board s) : Board (update_pending beyond s) := by
  obtain ⟨-, hmachine, -, hbytes⟩ := turn_update beyond s
  refine ⟨?_, ?_, hbytes.trans_lt h.bytes⟩
  · rw [hmachine]
    exact h.is_at
  · rw [hmachine]
    exact h.imr_now

/-! ## Changes that a look does not see -/

structure Unseen (s s' : State) : Prop where
  machine : s'.machine = s.machine
  pic : regs s'.pic = regs s.pic
  pic2 : regs s'.pic2 = regs s.pic2
  icw3 : s'.pic2.icw3 = s.pic2.icw3
  pending : s'.pic.int_pending = s.pic.int_pending
  pending2 : s'.pic2.int_pending = s.pic2.int_pending
  frozen : frozen s'.pic = frozen s.pic
  bytes : s'.pic.ack_bytes = s.pic.ack_bytes

theorem Unseen.board (h : Unseen s s') (hs : Board s) : Board s' := by
  refine ⟨?_, ?_, h.bytes.trans_lt hs.bytes⟩
  · rw [h.machine]
    exact hs.is_at
  · rw [h.machine]
    exact hs.imr_now

theorem Unseen.upToDate (h : Unseen s s') (hs : Board s) (hup : UpToDate beyond s) :
    UpToDate beyond s' := by
  refine (upToDate_iff (h.board hs).is_at).mpr fun hthawed => ?_
  rw [h.pending, h.pending2, finds_congr h.pic2, cascaded_congr h.pic2 h.icw3 h.pic]
  exact (upToDate_iff hs.is_at).mp hup (h.frozen.symm.trans hthawed)

/-- What holds between two steps. -/
def Current (beyond : Nat → BitVec 32) (s : State) : Prop := Board s ∧ UpToDate beyond s

theorem Unseen.current (h : Unseen s s') (hs : Current beyond s) : Current beyond s' :=
  ⟨h.board hs.1, h.upToDate hs.1 hs.2⟩

theorem current_update (h : Board s) : Current beyond (update_pending beyond s) :=
  ⟨update_board h, upToDate_update h.is_at⟩

/-- A change of other fields of a controller. -/
theorem unseen_set (dev : Dev) {p : Pic} (h : regs p = regs (s.get dev))
    (hicw3 : p.icw3 = (s.get dev).icw3) (hp : p.int_pending = (s.get dev).int_pending)
    (hf : frozen p = frozen (s.get dev)) (hb : p.ack_bytes = (s.get dev).ack_bytes) :
    Unseen s (s.set dev p) := by
  cases dev with
  | pic => exact ⟨rfl, h, rfl, rfl, hp, rfl, hf, hb⟩
  | pic2 => exact ⟨rfl, rfl, h, hicw3, rfl, hp, rfl, rfl⟩

theorem current_set (dev : Dev) (h : Current beyond s) {p : Pic} (hr : regs p = regs (s.get dev))
    (hicw3 : p.icw3 = (s.get dev).icw3) (hp : p.int_pending = (s.get dev).int_pending)
    (hf : frozen p = frozen (s.get dev)) (hb : p.ack_bytes = (s.get dev).ack_bytes) :
    Current beyond (s.set dev p) :=
  (unseen_set dev hr hicw3 hp hf hb).current h

/-- A change of the second controller that leaves its flag and what a look sees of it. -/
theorem current_set_slave (h : Current beyond s) {p : Pic} (hr : regs p = regs s.pic2)
    (hicw3 : p.icw3 = s.pic2.icw3) (hp : p.int_pending = s.pic2.int_pending) :
    Current beyond (s.set .pic2 p) := by
  have hunseen : Unseen s (s.set .pic2 p) := ⟨rfl, rfl, hr, hicw3, rfl, hp, rfl, rfl⟩
  exact hunseen.current h

theorem board_set (dev : Dev) {p : Pic} (h : Board s) (hb : p.ack_bytes < 3) :
    Board (s.set dev p) := by
  cases dev with
  | pic => exact ⟨h.is_at, h.imr_now, hb⟩
  | pic2 => exact ⟨h.is_at, h.imr_now, h.bytes⟩

theorem board_set_same (dev : Dev) {p : Pic} (h : Board s)
    (hb : p.ack_bytes = (s.get dev).ack_bytes) : Board (s.set dev p) := by
  cases dev with
  | pic => exact board_set .pic h (hb.trans_lt h.bytes)
  | pic2 => exact ⟨h.is_at, h.imr_now, h.bytes⟩

/-- The freeze of a poll. Nothing is said of the flags while it lasts. -/
theorem current_freeze (dev : Dev) {p : Pic} (h : Current beyond s)
    (hr : regs p = regs (s.get dev)) (hicw3 : p.icw3 = (s.get dev).icw3)
    (hp : p.int_pending = (s.get dev).int_pending)
    (hint : p.interrupt = (s.get dev).interrupt ||| 0x20)
    (hb : p.ack_bytes = (s.get dev).ack_bytes) : Current beyond (s.set dev p) := by
  cases dev with
  | pic =>
    have hfrozen : frozen p = true := by
      rw [frozen_eq, hint, BitVec.getLsbD_or]
      exact Bool.or_true _
    refine ⟨board_set_same .pic h.1 hb, fun hthawed => ?_⟩
    cases hfrozen.symm.trans hthawed
  | pic2 => exact current_set_slave h hr hicw3 hp

/-! ## Writes -/

theorem current_action (dev : Dev) (irq : Option Nat) (eoi rotate : Bool) (h : Current beyond s) :
    Current beyond (pic_action beyond dev irq eoi rotate s) := by
  unfold pic_action
  cases irq with
  | none => exact h
  | some irq =>
    refine current_update (board_set_same dev h.1 ?_)
    split_ifs <;> rfl

theorem current_command (dev : Dev) (h : Current beyond s) :
    Current beyond (pic_command beyond dev s) := by
  unfold pic_command
  dsimp only
  split_ifs
  · exact current_action _ _ _ _ h
  · exact current_action _ _ _ _ h
  · exact current_set dev h rfl rfl rfl rfl rfl

/-- A write to the first port looks at the registers, or changes none of them. -/
theorem current_write_a0 (dev : Dev) (val : BitVec 8) (h : Current beyond s) :
    Current beyond (pic_write beyond dev false val s) := by
  unfold pic_write
  dsimp only
  rw [if_neg Bool.false_ne_true]
  by_cases hicw1 : isSet (val &&& 0x10) = true
  · rw [if_pos hicw1]
    split_ifs
    · exact current_set dev h rfl rfl rfl rfl rfl
    · exact current_update (board_set dev h.1 (Nat.zero_lt_succ 2))
  · rw [if_neg hicw1]
    by_cases hocw3 : isSet (val &&& 0x08) = true
    · rw [if_pos hocw3]
      by_cases hpoll : isSet (val &&& 0x04) = true
      · rw [if_pos hpoll]
        split_ifs <;> exact current_freeze dev h rfl rfl rfl rfl rfl
      · rw [if_neg hpoll]
        split_ifs <;> exact current_set dev h rfl rfl rfl rfl rfl
    · rw [if_neg hocw3]
      refine current_command dev ?_
      exact current_set dev h rfl rfl rfl rfl rfl

theorem current_mask (dev : Dev) (val : BitVec 8) (h : Current beyond s)
    (hstate : (s.get dev).state = .STATE_NONE) :
    Current beyond (pic_write beyond dev true val s) := by
  have himr : Board (s.set dev { s.get dev with data_bus := val, imr := val }) :=
    board_set_same dev h.1 rfl
  unfold pic_write
  dsimp only
  rw [if_pos rfl]
  split
  · rename_i hno
    cases hstate.symm.trans hno
  · rename_i hno
    cases hstate.symm.trans hno
  · rename_i hno
    cases hstate.symm.trans hno
  · rw [if_pos himr.imr_now]
    exact current_update himr

/-- The state of a controller after the next byte of its setup. -/
def nextState (p : Pic) : InitState :=
  match p.state with
  | .STATE_ICW2 => if pic_cascade_mode p then .STATE_ICW3 else afterIcw3 p
  | .STATE_ICW3 => afterIcw3 p
  | .STATE_ICW4 | .STATE_NONE => .STATE_NONE

/-- ICW3 after the next byte of the setup. -/
def nextIcw3 (p : Pic) (val : BitVec 8) : BitVec 8 :=
  if p.state = .STATE_ICW3 then val else p.icw3

/-- A byte of the setup. -/
theorem setup_write (dev : Dev) (val : BitVec 8) (hstate : (s.get dev).state ≠ .STATE_NONE) :
    ∃ icw2 icw4, pic_write beyond dev true val s = s.set dev
      { s.get dev with
        data_bus := val
        icw2 := icw2
        icw3 := nextIcw3 (s.get dev) val
        icw4 := icw4
        state := nextState (s.get dev) } := by
  unfold pic_write nextState nextIcw3
  dsimp only
  rw [if_pos rfl]
  generalize hp : s.get dev = p at hstate ⊢
  cases hst : p.state with
  | STATE_ICW2 => exact ⟨val, p.icw4, rfl⟩
  | STATE_ICW3 => exact ⟨p.icw2, p.icw4, rfl⟩
  | STATE_ICW4 => exact ⟨p.icw2, val, rfl⟩
  | STATE_NONE => exact absurd hst hstate

/-! ## What is missed -/

/-- The byte that ends the setup of the first controller comes when that has no request to find. -/
def EndsQuietly (beyond : Nat → BitVec 32) (s : State) : Prop :=
  frozen s.pic = false → nextState s.pic = .STATE_NONE →
    finds (cascaded beyond s.pic2 { s.pic with state := .STATE_NONE }) = false

/-- The byte that ends the setup of the second controller comes when that has no request to find,
and ICW3 names an input without a request that the flag of the first one stands for. -/
def SlaveEndsQuietly (beyond : Nat → BitVec 32) (s : State) (val : BitVec 8) : Prop :=
  frozen s.pic = false →
    (nextState s.pic2 = .STATE_NONE → finds { s.pic2 with state := .STATE_NONE } = false) ∧
      (s.pic2.state = .STATE_ICW3 →
        finds { s.pic with irr := s.pic.irr &&& ~~~((one_shl beyond val.toNat).setWidth 8) } =
          s.pic.int_pending)

/-- A poll of the first controller, without a flag, finds nothing that came while it was frozen. -/
def PollsQuietly (beyond : Nat → BitVec 32) (s : State) : Prop :=
  s.machine.shadow = false → isSet (s.pic.ocw3 &&& 0x04) = true → s.pic.int_pending = false →
    frozen s.pic = true →
      finds s.pic2 = s.pic2.int_pending ∧ finds (cascaded beyond s.pic2 s.pic) = false

/-- Nothing is missed by a step that does not look at the registers. -/
def MissesNothing (beyond : Nat → BitVec 32) (s : State) : Op → Prop
  | .write .pic true _ => s.pic.state ≠ .STATE_NONE → EndsQuietly beyond s
  | .write .pic2 true val => s.pic2.state ≠ .STATE_NONE → SlaveEndsQuietly beyond s val
  | .read .pic _ => PollsQuietly beyond s
  | _ => True

/-- A byte of the setup of the first controller. -/
theorem setup_of_master (val : BitVec 8) (h : Current beyond s)
    (hstate : s.pic.state ≠ .STATE_NONE) :
    Board (pic_write beyond .pic true val s) ∧
      (UpToDate beyond (pic_write beyond .pic true val s) ↔ EndsQuietly beyond s) := by
  obtain ⟨icw2, icw4, hwrite⟩ := @setup_write beyond s .pic val hstate
  rw [hwrite]
  have hboard := board_set_same (s := s) .pic (p := { s.pic with
    data_bus := val
    icw2 := icw2
    icw3 := nextIcw3 s.pic val
    icw4 := icw4
    state := nextState s.pic }) h.1 rfl
  refine ⟨hboard, (upToDate_iff hboard.is_at).trans ?_⟩
  have hup := (upToDate_iff h.1.is_at).mp h.2
  have hidle : finds (cascaded beyond s.pic2 s.pic) = false := finds_setup hstate
  unfold EndsQuietly
  apply imp_congr_right
  intro hthawed
  obtain ⟨hpending2, hpending⟩ := hup hthawed
  rw [hidle] at hpending
  change s.pic2.int_pending = finds s.pic2 ∧
    s.pic.int_pending = finds (cascaded beyond s.pic2 _) ↔ _
  rw [hpending]
  simp only [hpending2, true_and]
  by_cases hend : nextState s.pic = .STATE_NONE
  · rw [hend]
    simp only [forall_const]
    refine eq_comm.trans (Eq.congr ?_ rfl)
    exact cascaded_congr rfl rfl rfl
  · refine iff_of_true ?_ fun hno => absurd hno hend
    exact (finds_setup hend).symm

/-- A byte of the setup of the second controller. -/
theorem setup_of_slave (val : BitVec 8) (h : Current beyond s)
    (hstate : s.pic2.state ≠ .STATE_NONE) :
    Board (pic_write beyond .pic2 true val s) ∧
      (UpToDate beyond (pic_write beyond .pic2 true val s) ↔ SlaveEndsQuietly beyond s val) := by
  obtain ⟨icw2, icw4, hwrite⟩ := @setup_write beyond s .pic2 val hstate
  rw [hwrite]
  generalize hp2 : ({ s.get .pic2 with
    data_bus := val
    icw2 := icw2
    icw3 := nextIcw3 (s.get .pic2) val
    icw4 := icw4
    state := nextState (s.get .pic2) } : Pic) = p2
  have hboard : Board (s.set .pic2 p2) := ⟨h.1.is_at, h.1.imr_now, h.1.bytes⟩
  refine ⟨hboard, (upToDate_iff hboard.is_at).trans ?_⟩
  have hup := (upToDate_iff h.1.is_at).mp h.2
  have hidle : finds s.pic2 = false := finds_setup hstate
  unfold SlaveEndsQuietly
  apply imp_congr_right
  intro hthawed
  obtain ⟨hpending2, hpending⟩ := hup hthawed
  rw [hidle] at hpending2
  have hpending2' : p2.int_pending = false := by
    rw [← hp2]
    exact hpending2
  have hfinds2 : finds p2 = false ↔
      (nextState s.pic2 = .STATE_NONE → finds { s.pic2 with state := .STATE_NONE } = false) := by
    by_cases hend : nextState s.pic2 = .STATE_NONE
    · simp only [hend, forall_const]
      refine Eq.congr (finds_congr ?_) rfl
      rw [← hp2]
      change (nextState s.pic2, _) = _
      rw [hend]
      rfl
    · refine iff_of_true (finds_setup ?_) fun hno => absurd hno hend
      rw [← hp2]
      exact hend
  have hicw3 : p2.icw3 = nextIcw3 s.pic2 val := by
    rw [← hp2]
    rfl
  change p2.int_pending = finds p2 ∧ s.pic.int_pending = finds (cascaded beyond p2 s.pic) ↔ _
  rw [hpending2', eq_comm, hfinds2]
  apply and_congr_right
  intro hquiet
  have hnone : finds p2 = false := hfinds2.mpr hquiet
  rw [cascaded_idle hidle] at hpending
  rw [cascaded_idle hnone, hicw3, nextIcw3]
  by_cases hicw3 : s.pic2.state = .STATE_ICW3
  · rw [if_pos hicw3]
    simp only [hicw3, forall_const]
    exact eq_comm
  · rw [if_neg hicw3]
    exact iff_of_true hpending fun hno => absurd hno hicw3

/-! ## Reads -/

theorem thawed_poll (interrupt : BitVec 8) : (interrupt &&& ~~~0x20).getLsbD 5 = false := by
  rw [BitVec.getLsbD_and]
  exact Bool.and_false _

/-- A poll that finds a request takes it, and looks for the next. -/
theorem current_poll (dev : Dev) (v : BitVec 8) (h : Board s) :
    Current beyond (update_pending beyond (s.set dev
      { pic_acknowledge s.machine { s.get dev with
          interrupt := (s.get dev).interrupt &&& ~~~0x20, data_bus := v } with
        int_pending := false })) := by
  apply current_update
  exact board_set_same dev h rfl

/-- A poll of the first controller that finds no request lets it go, and looks for none. -/
theorem idle_poll (v ocw3 : BitVec 8) (h : Current beyond s) :
    Board (s.set .pic { s.pic with
      interrupt := s.pic.interrupt &&& ~~~0x20, data_bus := v, ocw3 := ocw3 }) ∧
    (UpToDate beyond (s.set .pic { s.pic with
      interrupt := s.pic.interrupt &&& ~~~0x20, data_bus := v, ocw3 := ocw3 }) ↔
      (frozen s.pic = true → s.pic2.int_pending = finds s.pic2 ∧
        s.pic.int_pending = finds (cascaded beyond s.pic2 s.pic))) := by
  have hthawed : frozen { s.pic with
      interrupt := s.pic.interrupt &&& ~~~0x20, data_bus := v, ocw3 := ocw3 } = false :=
    (frozen_eq _).trans (thawed_poll _)
  generalize hp : ({ s.pic with
    interrupt := s.pic.interrupt &&& ~~~0x20, data_bus := v, ocw3 := ocw3 } : Pic) = p at hthawed ⊢
  have hregs : regs p = regs s.pic := hp ▸ rfl
  have hpending : p.int_pending = s.pic.int_pending := hp ▸ rfl
  have hboard : Board (s.set .pic p) :=
    board_set_same .pic h.1 (hp ▸ rfl : p.ack_bytes = s.pic.ack_bytes)
  refine ⟨hboard, (upToDate_iff hboard.is_at).trans ?_⟩
  have hup := (upToDate_iff h.1.is_at).mp h.2
  change (frozen p = false → s.pic2.int_pending = finds s.pic2 ∧
    p.int_pending = finds (cascaded beyond s.pic2 p)) ↔ _
  rw [hpending, cascaded_congr rfl rfl hregs]
  constructor
  · exact fun hall _ => hall hthawed
  · intro hall _
    cases hf : frozen s.pic with
    | true => exact hall hf
    | false => exact hup hf

theorem read_of_master (a0 : Bool) (h : Current beyond s) :
    Board (pic_read beyond .pic a0 s) ∧
      (UpToDate beyond (pic_read beyond .pic a0 s) ↔ PollsQuietly beyond s) := by
  have hfree : ∀ t, Current beyond t → (PollsQuietly beyond s) →
      Board t ∧ (UpToDate beyond t ↔ PollsQuietly beyond s) := fun t ht hquiet =>
    ⟨ht.1, iff_of_true ht.2 hquiet⟩
  unfold pic_read
  dsimp only [State.get]
  by_cases hshadow : s.machine.shadow = true
  · rw [if_pos hshadow]
    exact hfree _ (current_set .pic h rfl rfl rfl rfl rfl) fun hno => by
      cases hshadow.symm.trans hno
  · rw [if_neg hshadow]
    by_cases hpoll : isSet (s.pic.ocw3 &&& 0x04) = true
    · rw [if_pos hpoll]
      by_cases hpending : s.pic.int_pending = true
      · rw [if_pos hpending]
        exact hfree _ (current_set .pic (current_poll .pic _ h.1) rfl rfl rfl rfl rfl)
          fun _ _ hno => by cases hpending.symm.trans hno
      · rw [if_neg hpending]
        obtain ⟨hboard, hiff⟩ := idle_poll 0x00 (s.pic.ocw3 &&& ~~~0x04) h
        refine ⟨hboard, hiff.trans ?_⟩
        have hidle := Bool.eq_false_of_not_eq_true hpending
        unfold PollsQuietly
        simp only [hshadow, hpoll, hidle, forall_const, eq_comm]
    · rw [if_neg hpoll]
      have hquiet : PollsQuietly beyond s := fun _ hno => absurd hno hpoll
      split_ifs <;> exact hfree _ (current_set .pic h rfl rfl rfl rfl rfl) hquiet

theorem read_of_slave (a0 : Bool) (h : Current beyond s) :
    Current beyond (pic_read beyond .pic2 a0 s) := by
  unfold pic_read
  dsimp only
  by_cases hshadow : s.machine.shadow = true
  · rw [if_pos hshadow]
    exact current_set .pic2 h rfl rfl rfl rfl rfl
  · rw [if_neg hshadow]
    by_cases hpoll : isSet ((s.get .pic2).ocw3 &&& 0x04) = true
    · rw [if_pos hpoll]
      split_ifs
      · exact current_set .pic2 (current_poll .pic2 _ h.1) rfl rfl rfl rfl rfl
      · exact current_set_slave h rfl rfl rfl
    · rw [if_neg hpoll]
      split_ifs <;> exact current_set .pic2 h rfl rfl rfl rfl rfl

/-! ## The devices -/

theorem current_drive (set irq_state : Bool) (num : BitVec 16) (l : List Nat)
    (acc : State × BitVec 16) (h : Current beyond acc.1) :
    Current beyond (l.foldl (drive s.machine set irq_state num) acc).1 := by
  induction l generalizing acc with
  | nil => exact h
  | cons i rest ih =>
    rw [List.foldl_cons]
    apply ih
    obtain ⟨t, lines⟩ := acc
    unfold drive
    dsimp only
    by_cases hnum : isSet (num &&& BitVec.twoPow 16 i) = true
    · rw [if_pos hnum]
      exact current_set _ h rfl rfl rfl rfl rfl
    · rw [if_neg hnum]
      exact h

theorem current_request (set : Bool) (slaves : Nat) (num : BitVec 16) (h : Current beyond s) :
    Current beyond (requestLines beyond set slaves num s) := by
  unfold requestLines
  generalize (if slaves = 0 then num &&& 0x00ff else num) = num
  dsimp only
  by_cases h0 : num = 0
  · rw [if_pos h0]
    exact h
  · rw [if_neg h0]
    apply current_update
    split_ifs
    · exact ⟨h.1.is_at, h.1.imr_now, h.1.bytes⟩
    · exact ⟨h.1.is_at, h.1.imr_now, h.1.bytes⟩

theorem current_picint (num : BitVec 16) (level set irq_state : Bool) (h : Current beyond s) :
    Current beyond (picint_common beyond num level set irq_state s) := by
  unfold picint_common
  generalize withoutSlaves s.machine.is_at s.pic.icw3 num = first
  obtain ⟨num, slaves⟩ := first
  dsimp only
  by_cases h0 : num = 0
  · rw [if_pos h0]
    exact h
  · rw [if_neg h0]
    cases level with
    | true => exact current_request _ _ _ (current_drive _ _ _ _ (s, 0) h)
    | false => exact current_request _ _ _ h

/-! ## The acknowledge -/

/-- A part of an acknowledge: the board, the mode and the count of the cycles stay, and a freeze
lasts. -/
structure Midway (s s' : State) : Prop where
  machine : s'.machine = s.machine
  icw4 : s'.pic.icw4 = s.pic.icw4
  bytes : s'.pic.ack_bytes = s.pic.ack_bytes
  frozen : frozen s.pic = true → frozen s'.pic = true

theorem Midway.trans {s'' : State} (h : Midway s s') (h' : Midway s' s'') : Midway s s'' :=
  ⟨h'.machine.trans h.machine, h'.icw4.trans h.icw4, h'.bytes.trans h.bytes,
    fun hf => h'.frozen (h.frozen hf)⟩

theorem midway_set (dev : Dev) {p : Pic} (h4 : p.icw4 = (s.get dev).icw4)
    (hb : p.ack_bytes = (s.get dev).ack_bytes)
    (hf : frozen (s.get dev) = true → frozen p = true) : Midway s (s.set dev p) := by
  cases dev with
  | pic => exact ⟨rfl, h4, hb, hf⟩
  | pic2 => exact ⟨rfl, rfl, rfl, id⟩

theorem midway_update (beyond : Nat → BitVec 32) (s : State) :
    Midway s (update_pending beyond s) := by
  obtain ⟨-, hmachine, h4, hbytes⟩ := turn_update beyond s
  refine ⟨hmachine, h4, hbytes, fun hf => ?_⟩
  unfold update_pending pic_update_pending_at pic_update_pending_xt
  split_ifs <;> exact hf

theorem frozen_freeze (p : Pic) :
    frozen { p with interrupt := p.interrupt ||| 0x20 } = true := by
  rw [frozen_eq]
  exact (BitVec.getLsbD_or ..).trans (Bool.or_true _)

theorem midway_frame : AckFrame beyond Midway where
  refl _ := ⟨rfl, rfl, rfl, id⟩
  trans := Midway.trans
  data_bus _ dev _ := midway_set dev rfl rfl id
  idle _ dev := midway_set dev rfl rfl id
  freeze s dev := midway_set dev rfl rfl fun _ => frozen_freeze (s.get dev)
  auto_eoi s dev := by
    unfold pic_auto_non_specific_eoi
    dsimp only
    split_ifs
    · unfold pic_action
      cases pic_non_specific_find (s.get dev) with
      | none => exact ⟨rfl, rfl, rfl, id⟩
      | some irq =>
        refine Midway.trans (midway_set dev ?_ ?_ ?_) (midway_update beyond _)
        · split_ifs <;> rfl
        · split_ifs <;> rfl
        · split_ifs <;> exact id
    · exact ⟨rfl, rfl, rfl, id⟩

/-- The number of cycles of an acknowledge. -/
def cycles (p : Pic) : Nat := if pic_i86_mode p then 2 else 3

/-- A state after a cycle: it is the last one, and the flags are up to date, or the freeze lasts
from the first one on. -/
structure Cycled (beyond : Nat → BitVec 32) (s t : State) : Prop where
  machine : t.machine = s.machine
  mode : cycles t.pic = cycles s.pic
  bytes : t.pic.ack_bytes = (s.pic.ack_bytes + 1) % cycles s.pic
  last : t.pic.ack_bytes = 0 → UpToDate beyond t
  frozen : t.pic.ack_bytes ≠ 0 → s.pic.ack_bytes = 0 ∨ frozen s.pic = true → frozen t.pic = true

theorem cycles_eq {p p' : Pic} (h : p'.icw4 = p.icw4) : cycles p' = cycles p := by
  unfold cycles pic_i86_mode
  rw [h]

theorem cycleEnd_cycled {u : State} (hat : s.machine.is_at = true) (h : Midway s u)
    (hfirst : s.pic.ack_bytes = 0 ∨ frozen s.pic = true → frozen u.pic = true) :
    Cycled beyond s (cycleEnd beyond u) := by
  have hmode : cycles u.pic = cycles s.pic := cycles_eq h.icw4
  have hcount : (u.pic.ack_bytes + 1) % (if pic_i86_mode u.pic then 2 else 3) =
      (s.pic.ack_bytes + 1) % cycles s.pic := by
    rw [h.bytes, ← hmode]
    rfl
  unfold cycleEnd
  dsimp only
  rw [hcount]
  generalize hn : (s.pic.ack_bytes + 1) % cycles s.pic = n
  by_cases h0 : n = 0
  · rw [if_pos h0]
    have hended : ∀ v : State, v.machine = u.machine → v.pic.icw4 = u.pic.icw4 →
        v.pic.ack_bytes = n → Cycled beyond s (update_pending beyond v) := fun v hv h4 hb => by
      obtain ⟨hmachine, hicw4, hbytes, -⟩ := midway_update beyond v
      refine ⟨hmachine.trans (hv.trans h.machine), ?_, ?_, fun _ => upToDate_update ?_, ?_⟩
      · exact (cycles_eq (hicw4.trans h4)).trans hmode
      · rw [hbytes, hb, hn]
      · rw [hv, h.machine]
        exact hat
      · exact fun hne => absurd (hbytes.trans (hb.trans h0)) hne
    split_ifs <;> exact hended _ rfl rfl rfl
  · rw [if_neg h0]
    refine ⟨h.machine, (cycles_eq rfl).trans hmode, hn.symm, fun hzero => absurd hzero h0, ?_⟩
    exact fun _ hstart => hfirst hstart

theorem cycle_cycled (hat : s.machine.is_at = true) :
    guarded.Ends (nextCycle beyond s) (Cycled beyond s) fun _ => True := by
  unfold nextCycle
  refine guarded.ends_map ?_
  by_cases h0 : s.pic.ack_bytes = 0
  · rw [h0]
    refine guarded.Ends.mono ((@midway_frame beyond).first_read s) fun u hu => ?_
    have hstart : Midway s (freeze .pic s) := (@midway_frame beyond).freeze s .pic
    have hfrozen : frozen u.pic = true := hu.frozen (frozen_freeze s.pic)
    exact cycleEnd_cycled hat (hstart.trans hu) fun _ => hfrozen
  · refine guarded.Ends.mono ((@midway_frame beyond).ack_read s.pic.ack_bytes s) fun u hu => ?_
    exact cycleEnd_cycled hat hu fun hstart => hu.frozen (hstart.resolve_left h0)

/-- After the two cycles of the CPU the flags are up to date, or the controller is frozen. -/
theorem current_two_cycles (h : Board s) :
    guarded.Ends (do
      let u ← nextCycle beyond s
      nextCycle beyond u) (Current beyond) fun _ => True := by
  refine guarded.ends_bind (cycle_cycled h.is_at) fun u hu => ?_
  have hat : u.machine.is_at = true := by
    rw [hu.machine]
    exact h.is_at
  refine guarded.Ends.mono (cycle_cycled hat) fun t ht => ?_
  have hcycles : cycles s.pic = 2 ∨ cycles s.pic = 3 := by
    unfold cycles
    split_ifs
    · exact Or.inl rfl
    · exact Or.inr rfl
  have hbytes := h.bytes
  have hu' := hu.bytes
  have ht' := ht.bytes
  rw [hu.mode] at ht'
  have hboard : Board t := by
    refine ⟨?_, ?_, ?_⟩
    · rw [ht.machine]
      exact hat
    · rw [ht.machine, hu.machine]
      exact h.imr_now
    · rcases hcycles with hc | hc <;> rw [hc] at ht' <;> omega
  refine ⟨hboard, ?_⟩
  by_cases h0 : t.pic.ack_bytes = 0
  · exact ht.last h0
  · have hstart : u.pic.ack_bytes = 0 ∨ frozen u.pic = true := by
      by_cases hu0 : u.pic.ack_bytes = 0
      · exact Or.inl hu0
      · refine Or.inr (hu.frozen hu0 (Or.inl ?_))
        rcases hcycles with hc | hc <;> rw [hc] at hu' ht' <;> omega
    intro hthawed
    cases (ht.frozen h0 hstart).symm.trans hthawed

theorem current_picinterrupt (h : Board s) (hpending : s.pic.int_pending = true) :
    guarded.Ends (picinterrupt beyond s) (Current beyond) fun _ => True := by
  refine picinterrupt_ends (fun t ht => ?_) hpending
  apply current_two_cycles
  rcases ht with rfl | rfl | rfl
  · exact h
  · exact ⟨h.is_at, h.imr_now, h.bytes⟩
  · exact ⟨h.is_at, h.imr_now, h.bytes⟩

end

/-! ## Runs -/

/-- All but the single cycles of a CPU that makes them itself. -/
def Whole (op : Op) : Prop := op ≠ .irq_ack

section

variable {beyond : Nat → BitVec 32} {s : State}

theorem current_reset {machine : Machine} (hat : machine.is_at = true)
    (hnow : machine.imr_now = true) : Current beyond (pic_reset machine) := by
  refine ⟨⟨hat, hnow, Nat.zero_lt_succ 2⟩, (upToDate_iff ?_).mpr fun _ => ?_⟩
  · exact hat
  · have hnone : ∀ p : Pic, p.irr = 0 → p.isr = 0 → finds p = false := fun p hirr hisr => by
      unfold finds
      cases hbest : bestOf p (List.range 8) with
      | none => rfl
      | some j =>
        have hbit := (bestOf_spec hbest).2.2
        rw [hirr] at hbit
        simp at hbit
    have hslave : finds (cleared false) = false := hnone _ rfl rfl
    refine ⟨hslave.symm, ?_⟩
    change false = finds (cascaded beyond (cleared false) (cleared true))
    rw [cascaded_idle hslave]
    exact (hnone _ BitVec.zero_and rfl).symm

/-- A step keeps the flags up to date just when it misses nothing. -/
theorem current_step (op : {op : Op // Whole op}) (hboard : Board s) (hup : UpToDate beyond s) :
    guarded.Ends (step beyond s op)
      (fun t => Board t ∧ (UpToDate beyond t ↔ MissesNothing beyond s op))
      fun _ => MissesNothing beyond s op := by
  obtain ⟨op, hop⟩ := op
  have h : Current beyond s := ⟨hboard, hup⟩
  have hfree : ∀ t, Current beyond t → Board t ∧ (UpToDate beyond t ↔ True) := fun t ht =>
    ⟨ht.1, iff_of_true ht.2 trivial⟩
  cases op with
  | write dev a0 val =>
    cases a0 with
    | false =>
      have hwrite := hfree _ (current_write_a0 dev val h)
      cases dev with
      | pic => exact hwrite
      | pic2 => exact hwrite
    | true =>
      by_cases hstate : (s.get dev).state = .STATE_NONE
      · obtain ⟨hb, hup'⟩ := current_mask dev val h hstate
        cases dev with
        | pic => exact ⟨hb, iff_of_true hup' fun hno => absurd hstate hno⟩
        | pic2 => exact ⟨hb, iff_of_true hup' fun hno => absurd hstate hno⟩
      · cases dev with
        | pic =>
          obtain ⟨hb, hiff⟩ := setup_of_master val h hstate
          exact ⟨hb, hiff.trans ⟨fun hq _ => hq, fun hq => hq hstate⟩⟩
        | pic2 =>
          obtain ⟨hb, hiff⟩ := setup_of_slave val h hstate
          exact ⟨hb, hiff.trans ⟨fun hq _ => hq, fun hq => hq hstate⟩⟩
  | read dev a0 =>
    cases dev with
    | pic => exact read_of_master a0 h
    | pic2 => exact hfree _ (read_of_slave a0 h)
  | elcr_write dev val => exact hfree _ (current_set dev h rfl rfl rfl rfl rfl)
  | picint num level set irq_state => exact hfree _ (current_picint num level set irq_state h)
  | callback => exact hfree _ (current_update hboard)
  | picinterrupt =>
    unfold step
    dsimp only
    by_cases hpending : s.pic.int_pending = true
    · rw [if_pos hpending]
      have hends := @current_picinterrupt beyond s hboard hpending
      exact hends.mono hfree
    · rw [if_neg hpending]
      exact hfree s h
  | irq_ack => exact absurd rfl hop
  | reset => exact hfree _ (current_reset hboard.is_at hboard.imr_now)

end

/-- On a board of an AT with a 286, whatever the guest, the devices and the CPU do: while no
acknowledge and no poll is on, the flags are at all times what a look at the registers finds, just
when each step that does not look at them misses nothing. -/
theorem the_flags_are_up_to_date (beyond : Nat → BitVec 32) {machine : Machine}
    (hat : machine.is_at = true) (hnow : machine.imr_now = true)
    (ops : List {op : Op // Whole op}) :
    guarded.Throughout (fun s op => step beyond s op.val) (UpToDate beyond)
      (pic_reset machine) ops ↔
      guarded.Along (fun s op => step beyond s op.val) (fun s op => MissesNothing beyond s op.val)
        (pic_reset machine) ops := by
  obtain ⟨hboard, hup⟩ := @current_reset beyond machine hat hnow
  exact guarded.throughout_iff (fun s op hs hs' => current_step op hs hs') hboard hup ops

/-- The setup of the first controller, then a key, and the CPU takes it. -/
theorem a_key_is_reported :
    guarded.Throughout (fun s (op : {op : Op // Whole op}) => step (fun _ => 0) s op.val)
      (UpToDate fun _ => 0) (pic_reset at286)
      [⟨.write .pic false 0x11, nofun⟩, ⟨.write .pic true 0x08, nofun⟩,
        ⟨.write .pic true 0x04, nofun⟩, ⟨.write .pic true 0x01, nofun⟩,
        ⟨.picint 0x0002 false true false, nofun⟩, ⟨.picinterrupt, nofun⟩] := by
  refine (the_flags_are_up_to_date (fun _ => 0) rfl rfl _).mpr ?_
  refine guarded.along_cons_ok rfl trivial ?_
  refine guarded.along_cons_ok rfl (fun _ _ hend => InitState.noConfusion hend) ?_
  refine guarded.along_cons_ok rfl (fun _ _ hend => InitState.noConfusion hend) ?_
  refine guarded.along_cons_ok rfl (fun _ _ _ => rfl) ?_
  refine guarded.along_cons_ok rfl trivial ?_
  exact guarded.along_cons_ok rfl trivial guarded.along_nil

/-- A key between ICW1 and ICW4: after the setup it is there, and not reported. -/
theorem a_key_of_the_setup_is_not_reported :
    ¬∀ (machine : Machine), machine.is_at = true → machine.imr_now = true →
      ∀ ops : List {op : Op // Whole op},
        guarded.Throughout (fun s (op : {op : Op // Whole op}) => step (fun _ => 0) s op.val)
          (UpToDate fun _ => 0) (pic_reset machine) ops := by
  intro h
  have hend := h at286 rfl rfl [⟨.write .pic false 0x11, nofun⟩, ⟨.write .pic true 0x08, nofun⟩,
    ⟨.picint 0x0002 false true false, nofun⟩, ⟨.write .pic true 0x04, nofun⟩,
    ⟨.write .pic true 0x01, nofun⟩] _ [] (List.append_nil _).symm _ rfl rfl
  exact absurd hend.2 (by decide)

end blumach.pic_8259
