-- Reads of the 8253 and 8254: a latched count is read back whole, and no read or latch is
-- seen by the counter.
import BluMach.PitSteps

namespace blumach.pit_exact

open PitxType PitxState

/-! ## A channel without its latches -/

/-- The channel, with nothing latched and the next read at the low byte. -/
def core (c : Channel) : Channel :=
  { c with
    read_phase := 0
    count_latched := false
    status_latched := false
    output_latch := 0
    status_latch := 0 }

theorem core_update_live_latch (c : Channel) : core (update_live_latch c) = core c := by
  rw [update_live_latch_eq]
  rfl

theorem core_loadOutput (c : Channel) : core (loadOutput c) = loadOutput (core c) := by
  obtain ⟨type, control, mode_raw, mode, _⟩ := c
  unfold loadOutput core set_output
  dsimp only
  split
  all_goals first
    | rfl
    | (split_ifs <;> rfl)

theorem core_load_counting_element (c : Channel) :
    core (load_counting_element c) = core (load_counting_element (core c)) := by
  unfold load_counting_element
  simp only
  rw [core_loadOutput, core_update_live_latch, core_loadOutput, core_update_live_latch]
  congr 1
  have hv : reload_value (core c) = reload_value c := rfl
  have ht : (core c).type = c.type := rfl
  have hm : (core c).mode = c.mode := rfl
  have hw : (core c).rw_mode = c.rw_mode := rfl
  have hp : (core c).write_phase = c.write_phase := rfl
  have hr : (core c).count_register = c.count_register := rfl
  simp only [hv, ht, hm, hr, hw, hp]
  split_ifs <;> rfl

theorem core_decrement_n (n : Nat) (c : Channel) :
    core (decrement_n c n) = core (decrement_n (core c) n) := by
  have hone : ∀ c, core (decrement c) = core (decrement (core c)) := by
    intro c
    rw [decrement_eq, decrement_eq]
    unfold setElement
    rw [core_update_live_latch, core_update_live_latch]
    rfl
  induction n generalizing c with
  | zero => rfl
  | succ n ih =>
    unfold decrement_n
    rw [ih (decrement c), hone, ← ih (decrement (core c))]

/-- Mode 3 behind the decrements of an odd count on the 8254. -/
def oddEnd (c : Channel) : Channel :=
  if visible_count c.counting_element = 0 then
    if c.output then { c with toggle_on_reload := true, state := PITX_RELOAD_NEXT }
    else
      update_live_latch { set_output c true with counting_element := reload_value c &&& 0xfffe }
  else c

/-- Mode 3 behind the other decrements. -/
def evenEnd (c : Channel) : Channel :=
  if visible_count c.counting_element = 0 then
    update_live_latch { set_output c (!c.output) with counting_element := reload_value c }
  else c

theorem core_oddEnd (c : Channel) : core (oddEnd c) = core (oddEnd (core c)) := by
  have he : (core c).counting_element = c.counting_element := rfl
  have ho : (core c).output = c.output := rfl
  unfold oddEnd
  rw [he, ho]
  split_ifs
  · rfl
  · rw [core_update_live_latch, core_update_live_latch]
    rfl
  · rfl

theorem core_evenEnd (c : Channel) : core (evenEnd c) = core (evenEnd (core c)) := by
  have he : (core c).counting_element = c.counting_element := rfl
  unfold evenEnd
  rw [he]
  split_ifs
  · rw [core_update_live_latch, core_update_live_latch]
    rfl
  · rfl

theorem core_count_mode3 (c : Channel) : core (count_mode3 c) = core (count_mode3 (core c)) := by
  have hsplit : ∀ c, count_mode3 c =
      if c.count_register &&& 1 ≠ 0 ∧ c.type = PITX_8254 then oddEnd (decrement_n c 2)
      else evenEnd (if c.count_register &&& 1 ≠ 0 ∧ c.counting_element &&& 1 ≠ 0 then
        decrement_n c (if c.output then 1 else 3) else decrement_n c 2) := fun _ => rfl
  have he : (core c).counting_element = c.counting_element := rfl
  have ht : (core c).type = c.type := rfl
  have hr : (core c).count_register = c.count_register := rfl
  have ho : (core c).output = c.output := rfl
  rw [hsplit, hsplit, he, ht, hr, ho]
  by_cases hodd : c.count_register &&& 1 ≠ 0 ∧ c.type = PITX_8254
  · rw [if_pos hodd, if_pos hodd, core_oddEnd, core_decrement_n, ← core_oddEnd]
  · rw [if_neg hodd, if_neg hodd]
    by_cases hboth : c.count_register &&& 1 ≠ 0 ∧ c.counting_element &&& 1 ≠ 0
    · rw [if_pos hboth, if_pos hboth, core_evenEnd, core_decrement_n, ← core_evenEnd]
    · rw [if_neg hboth, if_neg hboth, core_evenEnd, core_decrement_n, ← core_evenEnd]

theorem core_countTick (c : Channel) : core (countTick c) = core (countTick (core c)) := by
  unfold countTick
  have hb : (core c).bcd = c.bcd := rfl
  have he : (core c).counting_element = c.counting_element := rfl
  have hm : (core c).mode = c.mode := rfl
  have hg : (core c).gate = c.gate := rfl
  have ha : (core c).armed = c.armed := rfl
  simp only [hb, he, hm, hg, ha, decrement_eq, setElement_eq]
  split
  all_goals first
    | rfl
    | (split_ifs <;> first | rfl | exact core_count_mode3 c)

theorem core_tick (c : Channel) : core (tick c) = core (tick (core c)) := by
  unfold tick
  have hs : (core c).state = c.state := rfl
  have hu : (core c).ce_undefined = c.ce_undefined := rfl
  have ha : (core c).armed = c.armed := rfl
  simp only [hs, hu, ha, update_live_latch_eq]
  cases c.state with
  | PITX_LOAD_NEXT => exact core_load_counting_element c
  | PITX_RELOAD_NEXT => exact core_load_counting_element c
  | PITX_COUNTING => exact core_countTick c
  | PITX_WAIT_TRIGGER => simp only []; split_ifs <;> rfl
  | PITX_STROBE_RECOVER => rfl
  | PITX_WAIT_COUNT => rfl
  | PITX_WAIT_GATE => rfl
  | PITX_DONE => rfl

theorem core_finalize_write (c : Channel) : core (finalize_write c) = finalize_write (core c) := by
  unfold finalize_write core
  dsimp only
  split_ifs <;> rfl

theorem core_dataWrite (value : BitVec 8) (c : Channel) :
    core (dataWrite value c) = core (dataWrite value (core c)) := by
  unfold dataWrite
  have hr : (core c).rw_mode = c.rw_mode := rfl
  have hp : (core c).write_phase = c.write_phase := rfl
  have hm : (core c).mode = c.mode := rfl
  simp only [hr, hp, hm]
  split
  · rw [core_finalize_write, core_finalize_write]; rfl
  · rw [core_finalize_write, core_finalize_write]; rfl
  · split_ifs
    · rfl
    · rfl
    · rw [core_finalize_write, core_finalize_write]; rfl
  · rfl

theorem core_setGate (gate : Bool) (c : Channel) :
    core (setGate gate c) = core (setGate gate (core c)) := by
  obtain ⟨type, control, mode_raw, mode, _⟩ := c
  unfold setGate core set_output
  dsimp only
  split_ifs
  all_goals first
    | rfl
    | (split <;> rfl)

theorem core_latch_count (c : Channel) : core (latch_count c) = core c := by
  unfold latch_count
  split_ifs <;> rfl

theorem core_latch_status (c : Channel) : core (latch_status c) = core c := by
  unfold latch_status
  split_ifs <;> rfl

theorem core_readBack (value : BitVec 8) (c : Channel) : core (readBack value c) = core c := by
  unfold readBack
  simp only
  split_ifs
  · rw [core_latch_status, core_latch_count]
  · rw [core_latch_status]
  · rw [core_latch_count]
  · rfl

theorem core_dataRead (c : Channel) : core (dataRead c).1 = core c := by
  unfold dataRead
  by_cases hs : c.status_latched = true
  · rw [if_pos hs]
    rfl
  · rw [if_neg hs]
    generalize (if c.count_latched then c.output_latch else visible_count c.counting_element) = v
    simp only
    by_cases hp : !c.count_latched ∧ c.rw_mode = 3 ∧ c.write_phase = 1
    · rw [if_pos hp]
    · rw [if_neg hp]
      split
      · rfl
      · rfl
      · split_ifs <;> rfl
      · rfl

/-! ## The counter does not see its readers -/

/-- A call that is no latch command, no read-back command and no read. -/
def visible : Call → Bool
  | .control_write value => (value >>> 6).toNat ≠ 3 ∧ value &&& 0x30 ≠ 0
  | .data_read _ => false
  | _ => true

theorem core_of_visible_eq_false (type : PitxType) (ch : Nat) {call : Call}
    (h : visible call = false) (c : Channel) : core (channelCall type ch call c) = core c := by
  cases call with
  | control_write value =>
    simp only [visible, decide_eq_false_iff_not] at h
    unfold channelCall
    simp only
    split_ifs with h3 hb hs hl
    · exact core_readBack value c
    · rfl
    · exact core_latch_count c
    · exact absurd ⟨h3, hl⟩ h
    · rfl
  | data_read channel =>
    unfold channelCall
    simp only
    split_ifs
    · exact core_dataRead c
    · rfl
  | data_write channel value => exact absurd h (by simp [visible])
  | set_gate channel gate => exact absurd h (by simp [visible])
  | tick_channel channel => exact absurd h (by simp [visible])

/-- The core after a call is settled by the core before it. -/
theorem core_channelCall (type : PitxType) (ch : Nat) (call : Call) (c : Channel) :
    core (channelCall type ch call c) = core (channelCall type ch call (core c)) := by
  cases hv : visible call with
  | false =>
    rw [core_of_visible_eq_false type ch hv, core_of_visible_eq_false type ch hv]
    rfl
  | true =>
    cases call with
    | control_write value =>
      simp only [visible, decide_eq_true_eq] at hv
      unfold channelCall
      simp only
      rw [if_neg hv.1, if_neg hv.1, if_neg hv.2, if_neg hv.2]
      split_ifs <;> rfl
    | data_write channel value =>
      unfold channelCall
      simp only
      split_ifs
      · exact core_dataWrite value c
      · rfl
    | data_read channel => exact absurd hv (by simp [visible])
    | set_gate channel gate =>
      unfold channelCall
      simp only
      split_ifs
      · exact core_setGate gate c
      · rfl
    | tick_channel channel =>
      unfold channelCall
      simp only
      split_ifs
      · exact core_tick c
      · rfl

/-- Two devices that differ at most in what is latched. -/
structure SameCore (pit pit' : Device) : Prop where
  type : pit.type = pit'.type
  channel : ∀ ch < 3, core (pit.channel ch) = core (pit'.channel ch)

theorem SameCore.call {pit pit' : Device} (h : SameCore pit pit') (c : Call) :
    SameCore (call pit c) (call pit' c) := by
  refine ⟨?_, ?_⟩
  · rw [call_type, call_type, h.type]
  · intro ch hch
    rw [call_channel hch, call_channel hch, core_channelCall, h.channel ch hch, h.type,
      ← core_channelCall]

theorem SameCore.run (calls : List Call) : ∀ {pit pit' : Device}, SameCore pit pit' →
    SameCore (run pit calls) (run pit' calls) := by
  induction calls with
  | nil => intro pit pit' h; exact h
  | cons c calls ih => intro pit pit' h; exact ih (h.call c)

theorem sameCore_of_visible_eq_false (pit : Device) {c : Call} (h : visible c = false) :
    SameCore (call pit c) pit := by
  refine ⟨call_type pit c, ?_⟩
  intro ch hch
  rw [call_channel hch, core_of_visible_eq_false _ _ h]

/-- The calls that are not visible can be left out of a run. -/
theorem run_visible (calls : List Call) : ∀ pit : Device,
    SameCore (run pit calls) (run pit (calls.filter visible)) := by
  induction calls with
  | nil => intro pit; exact ⟨rfl, fun _ _ => rfl⟩
  | cons c calls ih =>
    intro pit
    by_cases hv : visible c = true
    · rw [List.filter_cons_of_pos hv]
      exact ih (call pit c)
    · rw [List.filter_cons_of_neg hv]
      have hc := sameCore_of_visible_eq_false pit (Bool.eq_false_iff.mpr hv)
      have hrun := hc.run calls
      have hrest := ih pit
      exact ⟨hrun.type.trans hrest.type,
        fun ch hch => (hrun.channel ch hch).trans (hrest.channel ch hch)⟩

/-! ## What a held count needs -/

/-- What the bytes of a latched count depend on is left alone. -/
structure KeepsReading (c c' : Channel) : Prop where
  rw_mode : c'.rw_mode = c.rw_mode
  read_phase : c'.read_phase = c.read_phase
  count_latched : c'.count_latched = c.count_latched
  output_latch : c.count_latched = true → c'.output_latch = c.output_latch

theorem keepsReading_refl (c : Channel) : KeepsReading c c := ⟨rfl, rfl, rfl, fun _ => rfl⟩

theorem KeepsReading.trans {c d e : Channel} (h : KeepsReading c d) (h' : KeepsReading d e) :
    KeepsReading c e := by
  refine ⟨h'.rw_mode.trans h.rw_mode, h'.read_phase.trans h.read_phase,
    h'.count_latched.trans h.count_latched, ?_⟩
  intro hl
  rw [h'.output_latch (h.count_latched.trans hl), h.output_latch hl]

theorem KeepsReading.ite {c d e : Channel} {p : Prop} [Decidable p] (h : KeepsReading c d)
    (h' : KeepsReading c e) : KeepsReading c (if p then d else e) := by
  by_cases hp : p
  · rwa [if_pos hp]
  · rwa [if_neg hp]

theorem keepsReading_loadOutput (c : Channel) : KeepsReading c (loadOutput c) := by
  unfold loadOutput set_output
  split
  all_goals first
    | exact ⟨rfl, rfl, rfl, fun _ => rfl⟩
    | (split_ifs <;> exact ⟨rfl, rfl, rfl, fun _ => rfl⟩)

theorem keepsReading_update_live_latch (c : Channel) : KeepsReading c (update_live_latch c) := by
  rw [update_live_latch_eq]
  exact ⟨rfl, rfl, rfl, fun h => if_pos h⟩

theorem keepsReading_setElement (value : Nat) (c : Channel) :
    KeepsReading c (setElement value c) := by
  rw [setElement_eq]
  exact ⟨rfl, rfl, rfl, fun h => if_pos h⟩

theorem keepsReading_load_counting_element (c : Channel) :
    KeepsReading c (load_counting_element c) := by
  unfold load_counting_element
  simp only
  refine KeepsReading.trans ?_ (keepsReading_loadOutput _)
  refine KeepsReading.trans ?_ (keepsReading_update_live_latch _)
  split_ifs <;> exact ⟨rfl, rfl, rfl, fun _ => rfl⟩

theorem keepsReading_count_mode3 (c : Channel) : KeepsReading c (count_mode3 c) := by
  rcases count_mode3_cases c with ⟨value, h⟩ | ⟨value, h⟩ | ⟨value, load, output, h⟩ <;> rw [h]
  · exact keepsReading_setElement value c
  · exact (keepsReading_setElement value c).trans ⟨rfl, rfl, rfl, fun _ => rfl⟩
  · refine (keepsReading_setElement value c).trans (KeepsReading.trans ?_
      (keepsReading_update_live_latch _))
    exact ⟨rfl, rfl, rfl, fun _ => rfl⟩

theorem keepsReading_countTick (c : Channel) : KeepsReading c (countTick c) := by
  have hd : KeepsReading c (decrement c) := keepsReading_setElement _ c
  unfold countTick
  simp only
  split
  · exact .ite (.ite (hd.trans ⟨rfl, rfl, rfl, fun _ => rfl⟩) hd) (keepsReading_refl c)
  · refine .ite (KeepsReading.trans (d := if (decrement c).armed then
      set_output (decrement c) true else decrement c) ?_ ⟨rfl, rfl, rfl, fun _ => rfl⟩) hd
    exact .ite (hd.trans ⟨rfl, rfl, rfl, fun _ => rfl⟩) hd
  · exact .ite (.ite (hd.trans ⟨rfl, rfl, rfl, fun _ => rfl⟩) hd) (keepsReading_refl c)
  · exact .ite (keepsReading_count_mode3 c) (keepsReading_refl c)
  · exact .ite (.ite (hd.trans ⟨rfl, rfl, rfl, fun _ => rfl⟩) hd) (keepsReading_refl c)
  · exact .ite (hd.trans ⟨rfl, rfl, rfl, fun _ => rfl⟩) hd
  · exact keepsReading_refl c

theorem keepsReading_tick (c : Channel) : KeepsReading c (tick c) := by
  unfold tick
  cases c.state with
  | PITX_LOAD_NEXT => exact keepsReading_load_counting_element c
  | PITX_RELOAD_NEXT => exact keepsReading_load_counting_element c
  | PITX_COUNTING => exact keepsReading_countTick c
  | PITX_WAIT_TRIGGER =>
    simp only []
    split_ifs
    · refine KeepsReading.trans ?_ (keepsReading_update_live_latch _)
      exact ⟨rfl, rfl, rfl, fun _ => rfl⟩
    · exact ⟨rfl, rfl, rfl, fun _ => rfl⟩
  | PITX_STROBE_RECOVER => exact ⟨rfl, rfl, rfl, fun _ => rfl⟩
  | PITX_WAIT_COUNT => exact keepsReading_refl c
  | PITX_WAIT_GATE => exact keepsReading_refl c
  | PITX_DONE => exact keepsReading_refl c

theorem keepsReading_finalize_write (c : Channel) : KeepsReading c (finalize_write c) := by
  unfold finalize_write
  simp only
  split_ifs <;> exact ⟨rfl, rfl, rfl, fun _ => rfl⟩

theorem keepsReading_dataWrite (value : BitVec 8) (c : Channel) :
    KeepsReading c (dataWrite value c) := by
  unfold dataWrite
  split
  · refine KeepsReading.trans ?_ (keepsReading_finalize_write _)
    exact ⟨rfl, rfl, rfl, fun _ => rfl⟩
  · refine KeepsReading.trans ?_ (keepsReading_finalize_write _)
    exact ⟨rfl, rfl, rfl, fun _ => rfl⟩
  · simp only
    split_ifs
    · exact ⟨rfl, rfl, rfl, fun _ => rfl⟩
    · exact ⟨rfl, rfl, rfl, fun _ => rfl⟩
    · refine KeepsReading.trans ?_ (keepsReading_finalize_write _)
      exact ⟨rfl, rfl, rfl, fun _ => rfl⟩
  · exact keepsReading_refl c

theorem keepsReading_setGate (gate : Bool) (c : Channel) : KeepsReading c (setGate gate c) := by
  unfold setGate set_output
  simp only
  split_ifs
  all_goals (try split)
  all_goals exact ⟨rfl, rfl, rfl, fun _ => rfl⟩

theorem keepsReading_latch_status (c : Channel) : KeepsReading c (latch_status c) := by
  unfold latch_status
  split_ifs <;> exact ⟨rfl, rfl, rfl, fun _ => rfl⟩

/-- A second latch command is ignored. -/
theorem latch_count_of_latched {c : Channel} (h : c.count_latched = true) : latch_count c = c :=
  if_pos h

/-! ## Reading a latched count -/

/-- A control word that programs channel `ch`. -/
def reprograms (ch : Nat) : Call → Bool
  | .control_write value => (value >>> 6).toNat = ch ∧ value &&& 0x30 ≠ 0
  | _ => false

/-- A latch command for the channel, or a read-back command that latches its count. -/
def latchesCount (type : PitxType) (ch : Nat) : Call → Bool
  | .control_write value =>
    (value >>> 6).toNat = ch ∧ value &&& 0x30 = 0 ∨
      type = PITX_8254 ∧ (value >>> 6).toNat = 3 ∧ value &&& ((2 : BitVec 8) <<< ch) ≠ 0 ∧
        value &&& 0x20 = 0
  | _ => false

/-- A read of the channel that no latched status takes. -/
def CountRead (ch : Nat) (c : Channel) (call : Call) : Prop :=
  call = .data_read ch ∧ c.status_latched = false

instance (ch : Nat) (c : Channel) (call : Call) : Decidable (CountRead ch c call) :=
  inferInstanceAs (Decidable (_ ∧ _))

/-- The bytes that the reads of the channel give, but for its status. -/
def countReads (ch : Nat) : Device → List Call → List (BitVec 8)
  | _, [] => []
  | pit, c :: calls =>
    if CountRead ch (pit.channel ch) c then
      (pitx_data_read ch pit).2 :: countReads ch (call pit c) calls
    else countReads ch (call pit c) calls

/-- What a read of the low byte gives when nothing is latched. -/
def liveByte (c : Channel) : BitVec 8 :=
  if c.write_phase = 1 then ~~~(c.count_register &&& 0xff).setWidth 8
  else (visible_count c.counting_element).setWidth 8

/-- The count `v` is latched, and `phase` bytes of it are read. -/
structure Holding (v : BitVec 16) (phase : Nat) (c : Channel) : Prop where
  rw_mode : c.rw_mode = 3
  count_latched : c.count_latched = true
  read_phase : c.read_phase = phase
  output_latch : c.output_latch = v

/-- Nothing is latched, and no byte of a live count is read. -/
structure Live (c : Channel) : Prop where
  rw_mode : c.rw_mode = 3
  count_latched : c.count_latched = false
  read_phase : c.read_phase = 0

theorem Holding.keeps {v : BitVec 16} {phase : Nat} {c c' : Channel} (h : Holding v phase c)
    (hk : KeepsReading c c') : Holding v phase c' :=
  ⟨hk.rw_mode.trans h.rw_mode, hk.count_latched.trans h.count_latched,
    hk.read_phase.trans h.read_phase, (hk.output_latch h.count_latched).trans h.output_latch⟩

theorem Live.keeps {c c' : Channel} (h : Live c) (hk : KeepsReading c c') : Live c' :=
  ⟨hk.rw_mode.trans h.rw_mode, hk.count_latched.trans h.count_latched,
    hk.read_phase.trans h.read_phase⟩

theorem keepsReading_status_read {c : Channel} (h : c.status_latched = true) :
    KeepsReading c (dataRead c).1 := by
  unfold dataRead
  rw [if_pos h]
  exact ⟨rfl, rfl, rfl, fun _ => rfl⟩

/-- While a count is held, or when no call latches one, only a read moves it on. -/
theorem keepsReading_channelCall {type : PitxType} {ch : Nat} {call : Call} {c : Channel}
    (hp : reprograms ch call = false)
    (hl : c.count_latched = true ∨ latchesCount type ch call = false)
    (hr : ¬CountRead ch c call) : KeepsReading c (channelCall type ch call c) := by
  cases call with
  | control_write value =>
    simp only [reprograms, decide_eq_false_iff_not, not_and, not_not] at hp
    simp only [latchesCount, decide_eq_false_iff_not, not_or, not_and] at hl
    unfold channelCall
    simp only
    split_ifs with h3 hb hs hv
    · unfold readBack
      simp only
      have hlc : value &&& 0x20 = 0 → latch_count c = c := by
        intro h20
        rcases hl with hl | hl
        · exact latch_count_of_latched hl
        · exact absurd h20 (hl.2 hb.1 h3 hb.2)
      by_cases h20 : value &&& 0x20 = 0
      · rw [if_pos h20, hlc h20]
        exact .ite (keepsReading_latch_status c) (keepsReading_refl c)
      · rw [if_neg h20]
        exact .ite (keepsReading_latch_status c) (keepsReading_refl c)
    · exact keepsReading_refl c
    · rcases hl with hl | hl
      · rw [latch_count_of_latched hl]
        exact keepsReading_refl c
      · exact absurd hv (hl.1 hs)
    · exact absurd (hp hs) hv
    · exact keepsReading_refl c
  | data_write channel value => exact .ite (keepsReading_dataWrite value c) (keepsReading_refl c)
  | data_read channel =>
    by_cases hc : channel = ch
    · subst hc
      have hs : c.status_latched = true := by
        by_contra h
        exact hr ⟨rfl, Bool.eq_false_iff.mpr h⟩
      exact .ite (keepsReading_status_read hs) (keepsReading_refl c)
    · unfold channelCall
      simp only
      rw [if_neg hc]
      exact keepsReading_refl c
  | set_gate channel gate => exact .ite (keepsReading_setGate gate c) (keepsReading_refl c)
  | tick_channel channel => exact .ite (keepsReading_tick c) (keepsReading_refl c)

theorem holding_latch_count {c : Channel} (hl : c.count_latched = false) (hw : c.rw_mode = 3) :
    Holding (visible_count c.counting_element) 0 (latch_count c) := by
  unfold latch_count
  rw [if_neg (by rw [hl]; decide)]
  exact ⟨hw, rfl, rfl, rfl⟩

/-- The count is held from the latch command on. -/
theorem holding_of_latchesCount {type : PitxType} {ch : Nat} {call : Call} {c : Channel}
    (hch : ch < 3) (hl : c.count_latched = false) (hw : c.rw_mode = 3)
    (h : latchesCount type ch call = true) :
    Holding (visible_count c.counting_element) 0 (channelCall type ch call c) := by
  have hold := holding_latch_count hl hw
  cases call with
  | control_write value =>
    simp only [latchesCount, decide_eq_true_eq] at h
    unfold channelCall
    simp only
    rcases h with ⟨hs, hv⟩ | ⟨ht, h3, hb, h20⟩
    · rw [if_neg (by omega), if_pos hs, if_pos hv]
      exact hold
    · rw [if_pos h3, if_pos ⟨ht, hb⟩]
      unfold readBack
      simp only
      rw [if_pos h20]
      exact hold.keeps (.ite (keepsReading_latch_status _) (keepsReading_refl _))
  | data_write channel value => exact absurd h (by simp [latchesCount])
  | data_read channel => exact absurd h (by simp [latchesCount])
  | set_gate channel gate => exact absurd h (by simp [latchesCount])
  | tick_channel channel => exact absurd h (by simp [latchesCount])

theorem dataRead_low {v : BitVec 16} {c : Channel} (hs : c.status_latched = false)
    (h : Holding v 0 c) : (dataRead c).2 = v.setWidth 8 ∧ Holding v 1 (dataRead c).1 := by
  obtain ⟨hw, hl, hp, ho⟩ := h
  unfold dataRead
  simp only [hs, hl, hw, hp, ho, Bool.false_eq_true, if_false, Bool.not_true, false_and, if_true]
  exact ⟨trivial, rfl, rfl, rfl, rfl⟩

theorem dataRead_high {v : BitVec 16} {c : Channel} (hs : c.status_latched = false)
    (h : Holding v 1 c) : (dataRead c).2 = (v >>> 8).setWidth 8 ∧ Live (dataRead c).1 := by
  obtain ⟨hw, hl, hp, ho⟩ := h
  unfold dataRead
  simp only [hs, hl, hw, hp, ho, Bool.false_eq_true, if_false, Bool.not_true, false_and, if_true,
    one_ne_zero]
  exact ⟨trivial, rfl, rfl, rfl⟩

theorem dataRead_live {c : Channel} (hs : c.status_latched = false) (h : Live c) :
    (dataRead c).2 = liveByte c := by
  obtain ⟨hw, hl, hp⟩ := h
  unfold dataRead liveByte
  simp only [hs, hl, hw, hp, Bool.false_eq_true, if_false, Bool.not_false, true_and, if_true]
  split_ifs <;> rfl

theorem pitx_data_read_byte {ch : Nat} (hch : ch < 3) (pit : Device) :
    (pitx_data_read ch pit).2 = (dataRead (pit.channel ch)).2 := by
  unfold pitx_data_read
  rw [if_neg (by omega)]

theorem call_data_read {ch : Nat} (hch : ch < 3) (pit : Device) :
    (call pit (.data_read ch)).channel ch = (dataRead (pit.channel ch)).1 := by
  rw [call_channel hch]
  exact if_pos rfl

section

variable {ch : Nat} {v : BitVec 16}

/-- After the low byte is read, the next read gives the high byte. -/
theorem countReads_of_holding_one (hch : ch < 3) : ∀ (calls : List Call) (pit : Device),
    Holding v 1 (pit.channel ch) → (∀ c ∈ calls, reprograms ch c = false) →
      (countReads ch pit calls).take 1 <+: [(v >>> 8).setWidth 8] := by
  intro calls
  induction calls with
  | nil => intro pit _ _; exact List.nil_prefix
  | cons c calls ih =>
    intro pit h hp
    unfold countReads
    by_cases hr : CountRead ch (pit.channel ch) c
    · rw [if_pos hr, pitx_data_read_byte hch, (dataRead_high hr.2 h).1]
      exact List.prefix_refl _
    · rw [if_neg hr]
      refine ih _ ?_ (fun c hc => hp c (List.mem_cons_of_mem _ hc))
      rw [call_channel hch]
      exact h.keeps
        (keepsReading_channelCall (hp c List.mem_cons_self) (.inl h.count_latched) hr)

theorem countReads_of_holding (hch : ch < 3) : ∀ (calls : List Call) (pit : Device),
    Holding v 0 (pit.channel ch) → (∀ c ∈ calls, reprograms ch c = false) →
      (countReads ch pit calls).take 2 <+: [v.setWidth 8, (v >>> 8).setWidth 8] := by
  intro calls
  induction calls with
  | nil => intro pit _ _; exact List.nil_prefix
  | cons c calls ih =>
    intro pit h hp
    have hrest : ∀ c ∈ calls, reprograms ch c = false :=
      fun c hc => hp c (List.mem_cons_of_mem _ hc)
    unfold countReads
    by_cases hr : CountRead ch (pit.channel ch) c
    · have hlow := dataRead_low hr.2 h
      rw [if_pos hr, pitx_data_read_byte hch, hlow.1, List.take_succ_cons, List.prefix_cons_inj]
      apply countReads_of_holding_one hch calls _ ?_ hrest
      rw [hr.1, call_data_read hch]
      exact hlow.2
    · rw [if_neg hr]
      refine ih _ ?_ hrest
      rw [call_channel hch]
      exact h.keeps
        (keepsReading_channelCall (hp c List.mem_cons_self) (.inl h.count_latched) hr)

/-- The held count moves on by the count reads of a run that leave some of it. -/
theorem holding_of_countReads (hch : ch < 3) : ∀ (calls : List Call) (pit : Device) (phase : Nat),
    Holding v phase (pit.channel ch) → (∀ c ∈ calls, reprograms ch c = false) →
      phase + (countReads ch pit calls).length ≤ 1 →
        Holding v (phase + (countReads ch pit calls).length) ((run pit calls).channel ch) := by
  intro calls
  induction calls with
  | nil => intro pit phase h _ _; exact h
  | cons c calls ih =>
    intro pit phase h hp hlen
    have hrest : ∀ c ∈ calls, reprograms ch c = false :=
      fun c hc => hp c (List.mem_cons_of_mem _ hc)
    unfold countReads at hlen ⊢
    rw [run_cons]
    by_cases hr : CountRead ch (pit.channel ch) c
    · rw [if_pos hr, List.length_cons] at hlen ⊢
      have hphase : phase = 0 := by omega
      subst hphase
      have hlow : Holding v 1 ((call pit c).channel ch) := by
        rw [hr.1, call_data_read hch]
        exact (dataRead_low hr.2 h).2
      have hnext := ih (call pit c) 1 hlow hrest (by omega)
      rwa [show 0 + ((countReads ch (call pit c) calls).length + 1) =
        1 + (countReads ch (call pit c) calls).length by omega]
    · rw [if_neg hr] at hlen ⊢
      refine ih _ phase ?_ hrest hlen
      rw [call_channel hch]
      exact h.keeps
        (keepsReading_channelCall (hp c List.mem_cons_self) (.inl h.count_latched) hr)

/-- With nothing read or latched, the next read stays a live one. -/
theorem live_of_countReads (hch : ch < 3) : ∀ (calls : List Call) (pit : Device),
    Live (pit.channel ch) → (∀ c ∈ calls, reprograms ch c = false) →
      (∀ c ∈ calls, latchesCount pit.type ch c = false) → countReads ch pit calls = [] →
        Live ((run pit calls).channel ch) := by
  intro calls
  induction calls with
  | nil => intro pit h _ _ _; exact h
  | cons c calls ih =>
    intro pit h hp hl hnone
    unfold countReads at hnone
    by_cases hr : CountRead ch (pit.channel ch) c
    · rw [if_pos hr] at hnone
      exact absurd hnone (List.cons_ne_nil _ _)
    · rw [if_neg hr] at hnone
      rw [run_cons]
      refine ih _ ?_ (fun c hc => hp c (List.mem_cons_of_mem _ hc)) ?_ hnone
      · rw [call_channel hch]
        exact h.keeps
          (keepsReading_channelCall (hp c List.mem_cons_self) (.inr (hl c List.mem_cons_self)) hr)
      · rw [call_type]
        exact fun c hc => hl c (List.mem_cons_of_mem _ hc)

theorem countReads_append (calls later : List Call) : ∀ pit : Device,
    countReads ch pit (calls ++ later) =
      countReads ch pit calls ++ countReads ch (run pit calls) later := by
  induction calls with
  | nil => intro pit; rfl
  | cons c calls ih =>
    intro pit
    simp only [List.cons_append, countReads, run_cons, ih]
    split_ifs
    · rfl
    · rfl

end

/-! ## The law -/

/-- A latched count is read back whole, low byte first, whatever comes between, and the
next read is a live one. What is latched or read never shows in OUT or in the count. -/
theorem a_latched_count_is_read_whole_and_unseen :
    (∀ (pit : Device) (ch : Nat) (value : BitVec 8), ch < 3 →
      (pit.channel ch).count_latched = false → (pit.channel ch).rw_mode = 3 →
      latchesCount pit.type ch (.control_write value) = true →
        let v := visible_count (pit.channel ch).counting_element
        let latched := pitx_control_write value pit
        (∀ calls, (∀ c ∈ calls, reprograms ch c = false) →
          (countReads ch latched calls).take 2 <+: [v.setWidth 8, (v >>> 8).setWidth 8]) ∧
        (∀ calls later, (∀ c ∈ calls ++ later, reprograms ch c = false) →
          (countReads ch latched calls).length = 1 →
          (countReads ch latched (calls ++ [.data_read ch])).length = 2 →
          let fresh := run latched (calls ++ [.data_read ch])
          (∀ c ∈ later, latchesCount pit.type ch c = false) → countReads ch fresh later = [] →
          ((run fresh later).channel ch).status_latched = false →
            (pitx_data_read ch (run fresh later)).2 =
              liveByte ((run fresh later).channel ch))) ∧
    (∀ (pit : Device) (calls calls' : List Call), calls.filter visible = calls'.filter visible →
      ∀ ch < 3,
        pitx_get_output ch (run pit calls) = pitx_get_output ch (run pit calls') ∧
        ((run pit calls).channel ch).counting_element =
          ((run pit calls').channel ch).counting_element) := by
  refine ⟨?_, ?_⟩
  · intro pit ch value hch hl hw hvalue v latched
    have hold : Holding v 0 (latched.channel ch) := by
      have h := call_channel hch pit (.control_write value)
      exact h ▸ holding_of_latchesCount hch hl hw hvalue
    refine ⟨fun calls hp => countReads_of_holding hch calls latched hold hp, ?_⟩
    intro calls later hp hone htwo fresh hlatch hnone hs
    have hcalls : ∀ c ∈ calls, reprograms ch c = false :=
      fun c hc => hp c (List.mem_append_left _ hc)
    have hheld : Holding v 1 ((run latched calls).channel ch) := by
      have h := holding_of_countReads hch calls latched 0 hold hcalls (by omega)
      rwa [hone] at h
    have hread : CountRead ch ((run latched calls).channel ch) (.data_read ch) := by
      by_contra hr
      rw [countReads_append, List.length_append, hone] at htwo
      simp only [countReads, if_neg hr, List.length_nil] at htwo
      omega
    have hlive : Live (fresh.channel ch) := by
      have h : fresh = call (run latched calls) (.data_read ch) := run_append ..
      rw [h, call_data_read hch]
      exact (dataRead_high hread.2 hheld).2
    have htype : fresh.type = pit.type := by
      rw [run_type]
      exact call_type pit (.control_write value)
    rw [pitx_data_read_byte hch]
    refine dataRead_live hs (live_of_countReads hch later fresh hlive
      (fun c hc => hp c (List.mem_append_right _ hc)) ?_ hnone)
    rw [htype]
    exact hlatch
  · intro pit calls calls' hvis ch hch
    have hcalls := (run_visible calls pit).channel ch hch
    have hcalls' := (run_visible calls' pit).channel ch hch
    rw [hvis] at hcalls
    have hcore := hcalls.trans hcalls'.symm
    have hout := congrArg Channel.output hcore
    have hcount := congrArg Channel.counting_element hcore
    refine ⟨?_, hcount⟩
    unfold pitx_get_output
    exact congrArg (decide (ch < 3) && ·) hout

/-- Channel 0 of an 8254 in mode 2, with a count of 0x1234 in its counting element. -/
def counting_0x1234 : Device :=
  run (pitx_reset PITX_8254)
    [.control_write 0x34, .data_write 0 0x34, .data_write 0 0x12, .set_gate 0 true,
      .tick_channel 0]

theorem latched_0x1234_is_read_whole :
    (countReads 0 (pitx_control_write 0 counting_0x1234)
      [.tick_channel 0, .data_read 0, .control_write 0xc2, .tick_channel 0, .data_read 0]).take 2
        <+: [0x34, 0x12] ∧
    pitx_get_output 0 (run counting_0x1234 [.control_write 0, .tick_channel 0]) =
      pitx_get_output 0 (run counting_0x1234 [.tick_channel 0, .data_read 0]) := by
  have h := a_latched_count_is_read_whole_and_unseen
  refine ⟨?_, ?_⟩
  · exact (h.1 counting_0x1234 0 0 (by decide) (by decide) (by decide) (by decide)).1 _ (by decide)
  · exact (h.2 counting_0x1234 [.control_write 0, .tick_channel 0]
      [.tick_channel 0, .data_read 0] (by decide) 0 (by decide)).1

end blumach.pit_exact
