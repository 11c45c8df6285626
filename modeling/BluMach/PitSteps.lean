-- What a call does to one channel of the 8253 or 8254, and what a store to its counting
-- element does.
import BluMach.PitExact
import Mathlib.Logic.Function.Iterate

namespace blumach.pit_exact

open PitxType PitxState

/-! ## Stores to the counting element -/

theorem update_live_latch_eq (c : Channel) :
    update_live_latch c =
      { c with
        output_latch :=
          if c.count_latched then c.output_latch else visible_count c.counting_element } := by
  unfold update_live_latch
  by_cases h : c.count_latched = true
  · rw [if_pos h, if_pos h]
  · rw [if_neg h, if_neg h]

/-- A store to the counting element that the live latch follows. -/
def setElement (value : Nat) (c : Channel) : Channel :=
  update_live_latch { c with counting_element := value }

theorem setElement_eq (value : Nat) (c : Channel) :
    setElement value c =
      { c with
        counting_element := value
        output_latch := if c.count_latched then c.output_latch else visible_count value } := by
  unfold setElement
  rw [update_live_latch_eq]

@[simp] theorem setElement_counting_element (value : Nat) (c : Channel) :
    (setElement value c).counting_element = value := by
  rw [setElement_eq]

theorem decrement_eq (c : Channel) :
    decrement c = setElement (decrementValue c.bcd c.counting_element) c := rfl

/-- Decrements in a row leave what one store of the last count leaves. -/
theorem decrement_n_eq (n : Nat) : ∀ c : Channel,
    decrement_n c (n + 1) = setElement ((decrementValue c.bcd)^[n + 1] c.counting_element) c := by
  induction n with
  | zero => intro c; rfl
  | succ n ih =>
    intro c
    unfold decrement_n
    rw [ih, decrement_eq]
    simp only [setElement_eq, Function.iterate_succ_apply]
    split_ifs <;> rfl

/-! ## What a tick leaves alone -/

/-- What has been programmed, and the gate, are as they were. -/
structure Fixed (c c' : Channel) : Prop where
  type : c'.type = c.type
  mode : c'.mode = c.mode
  rw_mode : c'.rw_mode = c.rw_mode
  bcd : c'.bcd = c.bcd
  gate : c'.gate = c.gate
  count_register : c'.count_register = c.count_register
  write_phase : c'.write_phase = c.write_phase
  initial_load : c'.initial_load = c.initial_load

theorem fixed_refl (c : Channel) : Fixed c c := ⟨rfl, rfl, rfl, rfl, rfl, rfl, rfl, rfl⟩

theorem Fixed.trans {c d e : Channel} (h : Fixed c d) (h' : Fixed d e) : Fixed c e :=
  ⟨h'.type.trans h.type, h'.mode.trans h.mode, h'.rw_mode.trans h.rw_mode, h'.bcd.trans h.bcd,
    h'.gate.trans h.gate, h'.count_register.trans h.count_register,
    h'.write_phase.trans h.write_phase, h'.initial_load.trans h.initial_load⟩

theorem Fixed.ite {c d e : Channel} {p : Prop} [Decidable p] (h : Fixed c d) (h' : Fixed c e) :
    Fixed c (if p then d else e) := by
  by_cases hp : p
  · rwa [if_pos hp]
  · rwa [if_neg hp]

theorem fixed_update_live_latch (c : Channel) : Fixed c (update_live_latch c) := by
  rw [update_live_latch_eq]
  exact ⟨rfl, rfl, rfl, rfl, rfl, rfl, rfl, rfl⟩

theorem fixed_setElement (value : Nat) (c : Channel) : Fixed c (setElement value c) := by
  rw [setElement_eq]
  exact ⟨rfl, rfl, rfl, rfl, rfl, rfl, rfl, rfl⟩

theorem fixed_loadOutput (c : Channel) : Fixed c (loadOutput c) := by
  unfold loadOutput set_output
  split
  all_goals first
    | exact ⟨rfl, rfl, rfl, rfl, rfl, rfl, rfl, rfl⟩
    | (split_ifs <;> exact ⟨rfl, rfl, rfl, rfl, rfl, rfl, rfl, rfl⟩)

/-- The value that a load stores. -/
def loadValue (c : Channel) : Nat :=
  if c.type = PITX_8254 ∧ c.mode = 3 ∧ c.count_register &&& 1 ≠ 0 then reload_value c &&& 0xfffe
  else reload_value c

/-- A load is a store, then the switch on the mode. -/
theorem load_eq (c : Channel) :
    load_counting_element c =
      loadOutput (setElement (loadValue c)
        { c with
          null_count := false
          ce_undefined := false
          incomplete_reload :=
            if c.rw_mode = 3 ∧ c.write_phase = 1 then true else c.incomplete_reload }) := by
  unfold load_counting_element loadValue setElement
  simp only
  congr 2
  split_ifs <;> rfl

theorem fixed_load (c : Channel) : Fixed c (load_counting_element c) := by
  rw [load_eq]
  refine Fixed.trans ?_ (fixed_loadOutput _)
  refine Fixed.trans ?_ (fixed_setElement _ _)
  exact ⟨rfl, rfl, rfl, rfl, rfl, rfl, rfl, rfl⟩

/-- In mode 3 a tick counts on, asks for a reload, or reloads. -/
theorem count_mode3_cases (c : Channel) :
    (∃ value, count_mode3 c = setElement value c) ∨
    (∃ value, count_mode3 c =
      { setElement value c with toggle_on_reload := true, state := PITX_RELOAD_NEXT }) ∨
    ∃ value load output, count_mode3 c = update_live_latch
      { set_output (setElement value c) output with counting_element := load } := by
  unfold count_mode3
  have h1 := decrement_n_eq 0
  have h2 := decrement_n_eq 1
  have h3 := decrement_n_eq 2
  by_cases hout : c.output = true
  all_goals
    simp only [h1, h2, h3, hout, if_true, Bool.false_eq_true, if_false]
    split_ifs
    all_goals first
      | exact Or.inl ⟨_, rfl⟩
      | exact Or.inr (Or.inl ⟨_, rfl⟩)
      | exact Or.inr (Or.inr ⟨_, _, _, rfl⟩)

theorem fixed_count_mode3 (c : Channel) : Fixed c (count_mode3 c) := by
  rcases count_mode3_cases c with ⟨value, h⟩ | ⟨value, h⟩ | ⟨value, load, output, h⟩ <;> rw [h]
  · exact fixed_setElement value c
  · exact (fixed_setElement value c).trans ⟨rfl, rfl, rfl, rfl, rfl, rfl, rfl, rfl⟩
  · refine (fixed_setElement value c).trans (Fixed.trans ?_ (fixed_update_live_latch _))
    exact ⟨rfl, rfl, rfl, rfl, rfl, rfl, rfl, rfl⟩

theorem fixed_countTick (c : Channel) : Fixed c (countTick c) := by
  have hd : Fixed c (decrement c) := fixed_setElement _ c
  unfold countTick
  simp only
  split
  · exact .ite (.ite (hd.trans ⟨rfl, rfl, rfl, rfl, rfl, rfl, rfl, rfl⟩) hd) (fixed_refl c)
  · refine .ite (Fixed.trans (d := if (decrement c).armed then set_output (decrement c) true
      else decrement c) ?_ ⟨rfl, rfl, rfl, rfl, rfl, rfl, rfl, rfl⟩) hd
    exact .ite (hd.trans ⟨rfl, rfl, rfl, rfl, rfl, rfl, rfl, rfl⟩) hd
  · exact .ite (.ite (hd.trans ⟨rfl, rfl, rfl, rfl, rfl, rfl, rfl, rfl⟩) hd) (fixed_refl c)
  · exact .ite (fixed_count_mode3 c) (fixed_refl c)
  · exact .ite (.ite (hd.trans ⟨rfl, rfl, rfl, rfl, rfl, rfl, rfl, rfl⟩) hd) (fixed_refl c)
  · exact .ite (hd.trans ⟨rfl, rfl, rfl, rfl, rfl, rfl, rfl, rfl⟩) hd
  · exact fixed_refl c

theorem fixed_tick (c : Channel) : Fixed c (tick c) := by
  unfold tick
  split
  · exact fixed_load c
  · exact fixed_load c
  · exact ⟨rfl, rfl, rfl, rfl, rfl, rfl, rfl, rfl⟩
  · exact .ite (fixed_setElement 3 c) (fixed_refl c)
  · exact fixed_refl c
  · exact fixed_refl c
  · exact fixed_refl c
  · exact fixed_countTick c

/-! ## One channel -/

/-- What a call does to channel `ch` of a chip of the type. -/
def channelCall (type : PitxType) (ch : Nat) : Call → Channel → Channel
  | .control_write value, c =>
    if (value >>> 6).toNat = 3 then
      if type = PITX_8254 ∧ value &&& ((2 : BitVec 8) <<< ch) ≠ 0 then readBack value c else c
    else if (value >>> 6).toNat = ch then
      if value &&& 0x30 = 0 then latch_count c else program_mode value c
    else c
  | .data_write channel value, c => if channel = ch then dataWrite value c else c
  | .data_read channel, c => if channel = ch then (dataRead c).1 else c
  | .set_gate channel gate, c => if channel = ch then setGate gate c else c
  | .tick_channel channel, c => if channel = ch then tick c else c

theorem onChannel_channel (channel ch : Nat) (f : Channel → Channel) (pit : Device) :
    (onChannel channel f pit).channel ch =
      if channel = ch then f (pit.channel ch) else pit.channel ch := by
  unfold onChannel
  by_cases h : channel = ch
  · subst h
    rw [if_pos rfl]
    exact Function.update_self ..
  · rw [if_neg h]
    exact Function.update_of_ne (fun he => h he.symm) ..

theorem guarded_channel {channel ch : Nat} (hch : ch < 3) (f : Channel → Channel)
    (pit : Device) :
    (if channel ≥ 3 then pit else onChannel channel f pit).channel ch =
      if channel = ch then f (pit.channel ch) else pit.channel ch := by
  by_cases h : channel ≥ 3
  · rw [if_pos h, if_neg (by omega)]
  · rw [if_neg h, onChannel_channel]

theorem readBack_channel {ch : Nat} (hch : ch < 3) (value : BitVec 8) (pit : Device) :
    ([0, 1, 2].foldl
      (fun pit i =>
        if value &&& ((2 : BitVec 8) <<< i) = 0 then pit else onChannel i (readBack value) pit)
      pit).channel ch =
        if value &&& ((2 : BitVec 8) <<< ch) = 0 then pit.channel ch
        else readBack value (pit.channel ch) := by
  have one : ∀ (i : Nat) (pit : Device),
      (if value &&& ((2 : BitVec 8) <<< i) = 0 then pit
        else onChannel i (readBack value) pit).channel ch =
          if i = ch then
            if value &&& ((2 : BitVec 8) <<< ch) = 0 then pit.channel ch
            else readBack value (pit.channel ch)
          else pit.channel ch := by
    intro i pit
    by_cases hi : i = ch
    · subst hi
      rw [if_pos rfl]
      split_ifs with hv
      · rfl
      · rw [onChannel_channel, if_pos rfl]
    · rw [if_neg hi]
      split_ifs
      · rfl
      · rw [onChannel_channel, if_neg hi]
  simp only [List.foldl_cons, List.foldl_nil, one]
  obtain h | h | h : ch = 0 ∨ ch = 1 ∨ ch = 2 := by omega
  all_goals subst h; simp

theorem call_channel {ch : Nat} (hch : ch < 3) (pit : Device) (c : Call) :
    (call pit c).channel ch = channelCall pit.type ch c (pit.channel ch) := by
  cases c with
  | control_write value =>
    simp only [call, pitx_control_write, channelCall]
    by_cases h3 : (value >>> 6).toNat = 3
    · simp only [if_pos h3]
      by_cases ht : pit.type = PITX_8254
      · rw [if_neg (by simp [ht]), readBack_channel hch]
        by_cases hv : value &&& ((2 : BitVec 8) <<< ch) = 0
        · rw [if_pos hv, if_neg (fun h => h.2 hv)]
        · rw [if_neg hv, if_pos ⟨ht, hv⟩]
      · rw [if_pos ht, if_neg (fun h => ht h.1)]
    · simp only [if_neg h3]
      by_cases hv : value &&& 0x30 = 0
      · simp only [if_pos hv]
        exact onChannel_channel ..
      · simp only [if_neg hv]
        exact onChannel_channel ..
  | data_write channel value => exact guarded_channel hch _ pit
  | data_read channel =>
    simp only [call, pitx_data_read, channelCall]
    rw [apply_ite Prod.fst]
    simp only []
    exact guarded_channel hch _ pit
  | set_gate channel gate => exact guarded_channel hch _ pit
  | tick_channel channel => exact guarded_channel hch _ pit

theorem call_type (pit : Device) (c : Call) : (call pit c).type = pit.type := by
  cases c with
  | control_write value =>
    simp only [call, pitx_control_write, List.foldl_cons, List.foldl_nil]
    split_ifs <;> rfl
  | data_write channel value => simp only [call, pitx_data_write]; split_ifs <;> rfl
  | data_read channel => simp only [call, pitx_data_read]; split_ifs <;> rfl
  | set_gate channel gate => simp only [call, pitx_set_gate]; split_ifs <;> rfl
  | tick_channel channel => simp only [call, pitx_tick_channel]; split_ifs <;> rfl

theorem run_cons (pit : Device) (c : Call) (calls : List Call) :
    run pit (c :: calls) = run (call pit c) calls := rfl

theorem run_append (pit : Device) (calls later : List Call) :
    run pit (calls ++ later) = run (run pit calls) later := List.foldl_append ..

theorem run_type (calls : List Call) : ∀ pit, (run pit calls).type = pit.type := by
  induction calls with
  | nil => intro pit; rfl
  | cons c calls ih =>
    intro pit
    rw [run_cons, ih, call_type]

end blumach.pit_exact
