-- The periodic waveforms of the 8253 and 8254, after any history: when they are kept, and
-- the two ways they are lost.
import BluMach.PitHistory

namespace blumach.pit_exact

open PitxType PitxState waveform

/-! ## Runs with the gate high and no more writes -/

/-- A call that writes nothing to the channel, and leaves its gate high. -/
def quiet (ch : Nat) : Call → Bool
  | .control_write value => !reprograms ch (.control_write value)
  | .data_write channel _ => channel ≠ ch
  | .data_read _ => true
  | .set_gate channel gate => channel ≠ ch ∨ gate = true
  | .tick_channel _ => true

def ticksOf (ch : Nat) (calls : List Call) : Nat := calls.count (.tick_channel ch)

theorem setGate_same {c : Channel} {gate : Bool} (h : c.gate = gate) : setGate gate c = c := by
  subst h
  have hrise : ¬(!c.gate ∧ c.gate) := by cases c.gate <;> simp
  have hfall : ¬(c.gate ∧ !c.gate) := by cases c.gate <;> simp
  unfold setGate
  simp only
  rw [if_neg hrise, if_neg hfall]

/-- A quiet call is a tick of the channel, or it does not touch its core. -/
theorem quiet_channelCall (type : PitxType) {ch : Nat} {call : Call} {c : Channel}
    (hq : quiet ch call = true) (hg : c.gate = true) :
    core (channelCall type ch call c) =
      if call = .tick_channel ch then core (tick c) else core c := by
  have hother : ∀ call : Call, call ≠ .tick_channel ch → ∀ x y : Channel,
      (if call = .tick_channel ch then core x else core y) = core y :=
    fun call hne x y => if_neg hne
  cases call with
  | control_write value =>
    rw [hother _ (by intro h; cases h)]
    simp only [quiet, reprograms, Bool.not_eq_true', decide_eq_false_iff_not, not_and,
      not_not] at hq
    unfold channelCall
    simp only
    split_ifs with h3 hb hs hl
    · exact core_readBack value c
    · rfl
    · exact core_latch_count c
    · exact absurd (hq hs) hl
    · rfl
  | data_write channel value =>
    rw [hother _ (by intro h; cases h)]
    have hne : channel ≠ ch := by simpa [quiet] using hq
    unfold channelCall
    simp only
    rw [if_neg hne]
  | data_read channel =>
    rw [hother _ (by intro h; cases h)]
    unfold channelCall
    simp only
    split_ifs
    · exact core_dataRead c
    · rfl
  | set_gate channel gate =>
    rw [hother _ (by intro h; cases h)]
    have hor : channel ≠ ch ∨ gate = true := by simpa [quiet] using hq
    unfold channelCall
    simp only
    split_ifs with hc
    · rcases hor with hne | hgate
      · exact absurd hc hne
      · rw [setGate_same (c := c) (hg.trans hgate.symm)]
    · rfl
  | tick_channel channel =>
    unfold channelCall
    simp only [Call.tick_channel.injEq]
    split_ifs <;> rfl

theorem core_ticks {c d : Channel} (h : core c = core d) (k : Nat) :
    core (tick^[k] c) = core (tick^[k] d) := by
  induction k with
  | zero => exact h
  | succ k ih =>
    rw [Function.iterate_succ_apply', Function.iterate_succ_apply', core_tick, ih, ← core_tick]

/-- Of a quiet run only the ticks of the channel count. -/
theorem quiet_run {ch : Nat} (hch : ch < 3) (calls : List Call) : ∀ pit : Device,
    (pit.channel ch).gate = true → (∀ c ∈ calls, quiet ch c = true) →
      core ((run pit calls).channel ch) =
        core (tick^[ticksOf ch calls] (pit.channel ch)) := by
  induction calls with
  | nil => intro pit _ _; rfl
  | cons c calls ih =>
    intro pit hg hq
    have hcall := quiet_channelCall pit.type (hq c List.mem_cons_self) hg
    rw [← call_channel hch] at hcall
    have hgate : ((call pit c).channel ch).gate = true := by
      have hcore : ∀ d, core ((call pit c).channel ch) = core d → d.gate = true →
          ((call pit c).channel ch).gate = true :=
        fun d h hd => (congrArg Channel.gate h).trans hd
      split_ifs at hcall
      · exact hcore _ hcall ((fixed_tick _).gate.trans hg)
      · exact hcore _ hcall hg
    rw [run_cons, ih _ hgate (fun c hc => hq c (List.mem_cons_of_mem _ hc))]
    unfold ticksOf
    by_cases hc : c = .tick_channel ch
    · rw [if_pos hc] at hcall
      rw [hc, List.count_cons_self, Function.iterate_succ_apply]
      exact core_ticks (hc ▸ hcall) _
    · rw [if_neg hc] at hcall
      rw [List.count_cons_of_ne (fun h => hc h)]
      exact core_ticks hcall _

/-! ## The waveforms -/

/-- The number of clocks that a count of `n` stands for, a count of 0 and of 1 included. -/
def Programmed.period (p : Programmed) (n : BitVec 16) : Nat :=
  if replaceOne p.mode n = 0 then modulus p.bcd else count p.bcd (replaceOne p.mode n).toNat

/-- OUT, `j` ticks after a reload that starts high or low. -/
def waveOutput (mode n : Nat) (start : Bool) (j : Nat) : Bool :=
  if mode = 3 then
    if start = true then decide (j % n < (n + 1) / 2) else decide (n / 2 ≤ j % n)
  else decide (j % n ≠ n - 1)

/-- In whatever quiet run, the channel reloads by tick 65538, and OUT is periodic from then
on. -/
def KeepsPeriod (ch mode n : Nat) (pit : Device) : Prop :=
  ∃ k < 65538, reloads (tick^[k] (pit.channel ch)) ∧
    ∃ start, ∀ calls, (∀ c ∈ calls, quiet ch c = true) → k < ticksOf ch calls →
      pitx_get_output ch (run pit calls) = waveOutput mode n start (ticksOf ch calls - (k + 1))

/-- After a rising gate OUT is high, and the next tick starts a period. -/
def StartsHigh (ch mode n : Nat) (pit : Device) : Prop :=
  pitx_get_output ch (pitx_set_gate ch true pit) = true ∧
    ∀ calls, (∀ c ∈ calls, quiet ch c = true) → 0 < ticksOf ch calls →
      pitx_get_output ch (run (pitx_set_gate ch true pit) calls) =
        waveOutput mode n true (ticksOf ch calls - 1)

/-- An 8253 in mode 3 counts down from an odd count, while its count register is even. -/
def OffBeat (c : Channel) : Prop :=
  c.type = PITX_8253 ∧ c.mode = 3 ∧ c.state = PITX_COUNTING ∧
    c.counting_element &&& 1 ≠ 0 ∧ c.count_register &&& 1 = 0

instance (c : Channel) : Decidable (OffBeat c) :=
  inferInstanceAs (Decidable (_ ∧ _ ∧ _ ∧ _ ∧ _))

/-! ## The generator of a channel -/

section

variable {p : Programmed} {c : Channel}

/-- A channel in mode 2 or 3 with a whole count. -/
structure Whole (p : Programmed) (c : Channel) : Prop where
  good : Good p c
  mode : c.mode = 2 ∨ c.mode = 3
  loaded : c.initial_load = false
  pending : p.pending = none

theorem Whole.valid (h : Whole p c) : ValidRegister c :=
  h.good.follows.valid (h.good.follows.last_ne_none h.loaded)

theorem Whole.steady (h : Whole p c) : Steady c := h.good.steady h.mode

def Whole.generator (h : Whole p c) : Generator where
  square := c.mode = 3
  masks := c.type = PITX_8254
  m := modulus c.bcd
  n := divisor c
  two_le := h.good.follows.two_le_divisor h.mode h.loaded h.pending
  le := divisor_le h.valid
  even := modulus_even c.bcd
  four_lt := two_lt_modulus c.bcd

def stageOf : PitxState → Stage
  | PITX_LOAD_NEXT => .load
  | PITX_RELOAD_NEXT => .reload
  | _ => .counting

def waveOf (c : Channel) : Wave where
  stage := stageOf c.state
  x := count c.bcd c.counting_element
  out := c.output
  toggle := c.toggle_on_reload

theorem Whole.state (h : Whole p c) (hg : c.gate = true) :
    c.state = stageState (stageOf c.state) := by
  rcases h.steady.high h.loaded hg with hst | hst | hst <;> rw [hst] <;> rfl

theorem Whole.counting (h : Whole p c) (hg : c.gate = true)
    (hst : stageOf c.state = .counting) : c.state = PITX_COUNTING := by
  rw [h.state hg, hst]
  rfl

theorem Whole.square (h : Whole p c) : h.generator.square = true ↔ c.mode = 3 :=
  decide_eq_true_iff

theorem Whole.square_false (h : Whole p c) : h.generator.square = false ↔ c.mode = 2 := by
  have hmode := h.mode
  rw [← Bool.not_eq_true, h.square]
  omega

theorem Whole.shows (h : Whole p c) (hg : c.gate = true) : Shows h.generator (waveOf c) c where
  mode := by
    by_cases h3 : c.mode = 3
    · rw [if_pos (h.square.mpr h3), h3]
    · have hmode := h.mode
      rw [if_neg (fun hs => h3 (h.square.mp hs))]
      omega
  gate := hg
  masks := decide_eq_true_iff
  m := rfl
  n := rfl
  register := h.valid
  state := h.state hg
  output := rfl
  toggle := rfl
  pulse := fun hs => h.steady.steady (.inl (h.square_false.mp hs))
  counts := fun hst => ⟨h.steady.counts (h.counting hg hst), rfl⟩

/-- While no half of a count waits to be loaded, the counter is where a generator's can be. -/
theorem Whole.running (h : Whole p c) (hg : c.gate = true) :
    Running h.generator (waveOf c) where
  toggle := fun hst => h.steady.steady (.inr (h.counting hg hst))
  le := fun hst => (h.steady.counts (h.counting hg hst)).count_le
  pulse := by
    intro hs hst
    have hm2 := h.square_false.mp hs
    have hcounting := h.counting hg hst
    have hwhole : c.incomplete_reload = false := by
      by_contra hinc
      have hhalf := h.steady.half (by simpa using hinc)
      have hidle := h.good.follows.idle h.pending
      omega
    exact ⟨h.steady.pulse hm2 hcounting hwhole, h.steady.level hm2 (.inl hcounting)⟩
  masked := by
    intro hs hm hst
    exact h.steady.even (h.square.mp hs) (of_decide_eq_true hm) (h.counting hg hst)

theorem Whole.offBeat (h : Whole p c) (hg : c.gate = true) :
    h.generator.OffBeat (waveOf c) ↔ OffBeat c := by
  have hodd := odd_register h.valid
  unfold Generator.OffBeat OffBeat
  have htype : h.generator.masks = false ↔ c.type = PITX_8253 := by
    have hm : h.generator.masks = true ↔ c.type = PITX_8254 := decide_eq_true_iff
    rw [← Bool.not_eq_true, hm]
    cases c.type <;> simp
  have hn : h.generator.n % 2 = 0 ↔ c.count_register &&& 1 = 0 := by
    have heq : h.generator.n = divisor c := rfl
    rw [heq]
    constructor
    · intro h0
      by_contra hne
      have := hodd.mp hne
      omega
    · intro h0
      by_contra hne
      exact hodd.mpr (by omega) h0
  have hstage : (waveOf c).stage = .counting ↔ c.state = PITX_COUNTING := by
    constructor
    · exact h.counting hg
    · intro hst
      unfold waveOf
      rw [hst]
      rfl
  rw [h.square, htype, hn, hstage]
  constructor
  · rintro ⟨h3, ht, h0, hst, hx⟩
    refine ⟨ht, h3, hst, ?_, h0⟩
    have hmod := count_mod_two (h.steady.counts hst)
    have hx' : count c.bcd c.counting_element % 2 = 1 := hx
    rw [Nat.and_one_is_mod]
    omega
  · rintro ⟨ht, h3, hst, hx, h0⟩
    refine ⟨h3, ht, h0, hst, ?_⟩
    have hmod := count_mod_two (h.steady.counts hst)
    rw [Nat.and_one_is_mod] at hx
    have hx' : count c.bcd c.counting_element % 2 = 1 := by omega
    exact hx'

theorem Whole.period (h : Whole p c) {n : BitVec 16} (hn : p.last = some n) :
    divisor c = p.period n := by
  have hf := h.good.follows
  unfold divisor reload_value Programmed.period
  rw [hf.register n hn h.pending, hf.bcd]
  by_cases h0 : replaceOne p.mode n = 0
  · rw [if_neg (fun h => h h0), if_pos h0, count_top]
  · rw [if_pos h0, if_neg h0]

theorem Whole.output (h : Whole p c) {n : BitVec 16} (hn : p.last = some n) (start : Bool)
    (j : Nat) : h.generator.output start j = waveOutput p.mode (p.period n) start j := by
  have hperiod : h.generator.n = p.period n := h.period hn
  have hmode : c.mode = p.mode := h.good.follows.mode
  unfold Generator.output waveOutput
  rw [hperiod, ← hmode]
  by_cases h3 : c.mode = 3
  · rw [if_pos (h.square.mpr h3), if_pos h3]
  · rw [if_neg (fun hs => h3 (h.square.mp hs)), if_neg h3]

end

/-! ## The law -/

section

variable {ch : Nat} {p : Programmed} {pit : Device}

/-- OUT after a quiet run, by the ticks of the generator. -/
theorem output_of_quiet (hch : ch < 3) (h : Whole p (pit.channel ch))
    (hg : (pit.channel ch).gate = true) {calls : List Call}
    (hq : ∀ c ∈ calls, quiet ch c = true) :
    pitx_get_output ch (run pit calls) =
      (h.generator.tick^[ticksOf ch calls] (waveOf (pit.channel ch))).out := by
  have hout := congrArg Channel.output (quiet_run hch calls pit hg hq)
  have hshows := shows_ticks (h.shows hg) (ticksOf ch calls)
  unfold pitx_get_output
  rw [decide_eq_true hch, Bool.true_and, ← hshows.output]
  exact hout

/-- The same from a load on. -/
theorem output_after_load (hch : ch < 3) (h : Whole p (pit.channel ch))
    (hg : (pit.channel ch).gate = true) {n : BitVec 16} (hn : p.last = some n) {k : Nat}
    {start : Bool} (hstart : h.generator.square = false → start = true)
    (hload : h.generator.tick^[k + 1] (waveOf (pit.channel ch)) = started h.generator start)
    {calls : List Call} (hq : ∀ c ∈ calls, quiet ch c = true) (hk : k < ticksOf ch calls) :
    pitx_get_output ch (run pit calls) =
      waveOutput p.mode (p.period n) start (ticksOf ch calls - (k + 1)) := by
  have hsplit : ticksOf ch calls = (ticksOf ch calls - (k + 1)) + (k + 1) := by omega
  rw [output_of_quiet hch h hg hq]
  conv_lhs => rw [hsplit, Function.iterate_add_apply, hload]
  rw [output_started hstart, h.output hn]

theorem keepsPeriod_iff (hch : ch < 3) (h : Whole p (pit.channel ch))
    (hg : (pit.channel ch).gate = true) {n : BitVec 16} (hn : p.last = some n) :
    KeepsPeriod ch p.mode (p.period n) pit ↔ ¬OffBeat (pit.channel ch) := by
  constructor
  · rintro ⟨k, -, hreload, -⟩ hoff
    have hshows := shows_ticks (h.shows hg) k
    exact not_reloads_of_offBeat (h.running hg) ((h.offBeat hg).mpr hoff) k
      (hshows.reloads.mp hreload)
  · intro hoff
    obtain ⟨k, hk, hreload, start, hstart, hload⟩ :=
      exists_loadsAt (h.running hg) (fun hc => hoff ((h.offBeat hg).mp hc))
    have hm : h.generator.m ≤ 65536 := modulus_le _
    refine ⟨k, by omega, (shows_ticks (h.shows hg) k).reloads.mpr hreload, start, ?_⟩
    intro calls hq ht
    exact output_after_load hch h hg hn hstart hload hq ht

theorem startsHigh_iff (hch : ch < 3) (h : Whole p (pit.channel ch))
    (hg : (pit.channel ch).gate = false) {n : BitVec 16} (hn : p.last = some n) :
    StartsHigh ch p.mode (p.period n) pit ↔
      ((pit.channel ch).mode = 3 → (pit.channel ch).output = true ∧
        (pit.channel ch).toggle_on_reload = false) := by
  -- the channel after the edge
  have hchannel : (pitx_set_gate ch true pit).channel ch = setGate true (pit.channel ch) := by
    have hcall := call_channel hch pit (.set_gate ch true)
    exact hcall.trans (if_pos rfl)
  obtain ⟨-, hmode, -, -, -, -, hil, -, htog, -, hgate⟩ := fixed_but_gate true (pit.channel ch)
  obtain ⟨hstate, hout⟩ := setGate_periodic h.mode true
  have hrise : ¬((pit.channel ch).gate = true ∨ (pit.channel ch).state = PITX_WAIT_COUNT) := by
    rw [hg]
    rintro (hc | hc)
    · cases hc
    · exact h.steady.not_waiting h.loaded hc
  rw [if_neg hrise, if_pos rfl] at hstate
  rw [if_neg (by simp)] at hout
  rw [← hchannel] at hmode hil htog hgate hstate hout
  have h' : Whole p ((pitx_set_gate ch true pit).channel ch) := by
    refine ⟨hchannel ▸ good_setGate true h.good, ?_, hil.trans h.loaded, h.pending⟩
    rw [hmode]
    exact h.mode
  have hstage : (waveOf ((pitx_set_gate ch true pit).channel ch)).stage = .load := by
    unfold waveOf
    rw [hstate]
    rfl
  obtain ⟨hload, -⟩ := loadsAt_load (g := h'.generator) (by rw [hstage]; nofun :
    (waveOf ((pitx_set_gate ch true pit).channel ch)).stage ≠ .counting)
  have hlevel : h'.generator.loadLevel (waveOf ((pitx_set_gate ch true pit).channel ch)) =
      if (pit.channel ch).mode = 3 ∧ (pit.channel ch).toggle_on_reload = true then
        !(pit.channel ch).output
      else true := by
    unfold Generator.loadLevel
    rw [hstage]
    have hsq := h'.square
    rw [hmode] at hsq
    have ht : (waveOf ((pitx_set_gate ch true pit).channel ch)).toggle =
        (pit.channel ch).toggle_on_reload := htog
    have ho : (waveOf ((pitx_set_gate ch true pit).channel ch)).out = (pit.channel ch).output :=
      hout
    rw [ht, ho]
    by_cases h3 : (pit.channel ch).mode = 3
    · rw [if_pos (hsq.mpr h3)]
      simp [h3]
    · rw [if_neg (fun hc => h3 (hsq.mp hc)), if_neg (fun hc => h3 hc.1)]
  have hafter : ∀ calls, (∀ c ∈ calls, quiet ch c = true) → 0 < ticksOf ch calls →
      pitx_get_output ch (run (pitx_set_gate ch true pit) calls) =
        waveOutput p.mode (p.period n)
          (if (pit.channel ch).mode = 3 ∧ (pit.channel ch).toggle_on_reload = true then
            !(pit.channel ch).output else true) (ticksOf ch calls - 1) := by
    intro calls hq ht
    rw [← hlevel]
    refine output_after_load (k := 0) hch h' hgate hn ?_ hload hq ht
    intro hs
    have hm2 := h'.square_false.mp hs
    rw [hlevel, if_neg (by omega)]
  have hedge : pitx_get_output ch (pitx_set_gate ch true pit) = (pit.channel ch).output := by
    unfold pitx_get_output
    rw [decide_eq_true hch, Bool.true_and, hout]
  have hperiod : 2 ≤ p.period n := by
    have htwo := h.generator.two_le
    rwa [← h.period hn]
  unfold StartsHigh
  rw [hedge]
  constructor
  · rintro ⟨hhigh, hall⟩ h3
    refine ⟨hhigh, ?_⟩
    by_contra htoggle
    have ht : (pit.channel ch).toggle_on_reload = true := by simpa using htoggle
    have hone : 0 < ticksOf ch [.tick_channel ch] := by simp [ticksOf]
    have hquiet : ∀ c ∈ [Call.tick_channel ch], quiet ch c = true := by simp [quiet]
    have hwrong := (hafter _ hquiet hone).symm.trans (hall _ hquiet hone)
    have hp3 : p.mode = 3 := by rw [← h.good.follows.mode]; exact h3
    rw [if_pos ⟨h3, ht⟩, hhigh, hp3] at hwrong
    simp [waveOutput, ticksOf] at hwrong
    omega
  · intro hcond
    refine ⟨?_, ?_⟩
    · rcases h.mode with hm | hm
      · exact h.steady.level hm (.inr hg)
      · exact (hcond hm).1
    · intro calls hq ht
      have hclean : ¬((pit.channel ch).mode = 3 ∧ (pit.channel ch).toggle_on_reload = true) := by
        rintro ⟨h3, htoggle⟩
        rw [(hcond h3).2] at htoggle
        cases htoggle
      have h0 := hafter calls hq ht
      rwa [if_neg hclean] at h0

end

theorem whole_of_history {ch : Nat} (hch : ch < 3) (type : PitxType) {calls : List Call}
    (hvalid : ValidBytes ch unprogrammed calls)
    (hmode : (programmed ch calls).mode = 2 ∨ (programmed ch calls).mode = 3)
    (hlast : (programmed ch calls).last ≠ none) (hpending : (programmed ch calls).pending = none) :
    Whole (programmed ch calls) ((run (pitx_reset type) calls).channel ch) := by
  have hgood := good_history hch type hvalid
  refine ⟨hgood, ?_, ?_, hpending⟩
  · rw [hgood.follows.mode]
    exact hmode
  · rw [hgood.follows.initial_load]
    cases hl : (programmed ch calls).last with
    | none => exact absurd hl hlast
    | some n => rfl

/-- In mode 2 or 3 with a whole count, after any history, the waveform is kept unless the
count is off the beat, or a toggle or a low OUT was left behind when the gate fell. -/
theorem the_waveform_is_kept_unless_off_beat (type : PitxType) (ch : Nat) (calls : List Call)
    (n : BitVec 16) (hch : ch < 3) (hvalid : ValidBytes ch unprogrammed calls)
    (hmode : (programmed ch calls).mode = 2 ∨ (programmed ch calls).mode = 3)
    (hlast : (programmed ch calls).last = some n)
    (hpending : (programmed ch calls).pending = none) :
    let pit := run (pitx_reset type) calls
    let c := pit.channel ch
    let mode := (programmed ch calls).mode
    let period := (programmed ch calls).period n
    ((c.gate = true → KeepsPeriod ch mode period pit) ∧
        (c.gate = false → StartsHigh ch mode period pit)) ↔
      ((c.gate = true → ¬OffBeat c) ∧
        (c.gate = false → c.mode = 3 → c.output = true ∧ c.toggle_on_reload = false)) := by
  intro pit c mode period
  have hwhole : Whole (programmed ch calls) c :=
    whole_of_history hch type hvalid hmode (by rw [hlast]; nofun) hpending
  constructor
  · rintro ⟨hhigh, hlow⟩
    exact ⟨fun hg => (keepsPeriod_iff hch hwhole hg hlast).mp (hhigh hg),
      fun hg => (startsHigh_iff hch hwhole hg hlast).mp (hlow hg)⟩
  · rintro ⟨hhigh, hlow⟩
    exact ⟨fun hg => (keepsPeriod_iff hch hwhole hg hlast).mpr (hhigh hg),
      fun hg => (startsHigh_iff hch hwhole hg hlast).mpr (hlow hg)⟩

/-- The gate falls in the clock that an odd count of an 8254 waits for its toggle. -/
def toggle_left_behind : List Call :=
  [.control_write 0x36, .data_write 0 5, .data_write 0 0, .set_gate 0 true, .tick_channel 0,
    .tick_channel 0, .tick_channel 0, .set_gate 0 false]

/-- An even count follows an odd one on an 8253. -/
def even_after_odd : List Call :=
  [.control_write 0x36, .data_write 0 5, .data_write 0 0, .set_gate 0 true, .tick_channel 0,
    .data_write 0 4, .data_write 0 0]

theorem binary {ch : Nat} {p : Programmed} {c : Call} (h : p.bcd = false) :
    ∀ value, c = .data_write ch value → p.bcd = true → decimal.IsDecimal value.toNat := by
  intro value _ hb
  rw [h] at hb
  cases hb

theorem validBytes_even_after_odd : ValidBytes 0 unprogrammed even_after_odd := by
  refine ⟨?_, ?_, ?_, ?_, ?_, ?_, ?_, trivial⟩ <;> exact binary (by decide)

theorem a_count_of_four_is_kept :
    KeepsPeriod 0 3 4 (run (pitx_reset PITX_8254) even_after_odd) := by
  have hcond : ∀ c : Channel, c.type = PITX_8254 → c.gate = true →
      (c.gate = true → ¬OffBeat c) ∧
        (c.gate = false → c.mode = 3 → c.output = true ∧ c.toggle_on_reload = false) := by
    intro c ht hg
    refine ⟨fun _ hoff => ?_, fun hlow => ?_⟩
    · have h8253 := ht.symm.trans hoff.1
      cases h8253
    · rw [hg] at hlow
      cases hlow
  exact ((the_waveform_is_kept_unless_off_beat PITX_8254 0 even_after_odd 4 (by decide)
    validBytes_even_after_odd (by decide) (by decide) (by decide)).mpr
      (hcond _ (by decide) (by decide))).1 (by decide)

/-- Each of the two ways to lose the waveform. -/
theorem a_toggle_is_left_behind_and_a_count_is_off_beat :
    (ValidBytes 0 unprogrammed toggle_left_behind ∧
      (programmed 0 toggle_left_behind).mode = 3 ∧
      (programmed 0 toggle_left_behind).last = some 5 ∧
      (programmed 0 toggle_left_behind).pending = none ∧
      ((run (pitx_reset PITX_8254) toggle_left_behind).channel 0).gate = false ∧
      ¬StartsHigh 0 3 5 (run (pitx_reset PITX_8254) toggle_left_behind)) ∧
    ValidBytes 0 unprogrammed even_after_odd ∧
      (programmed 0 even_after_odd).mode = 3 ∧
      (programmed 0 even_after_odd).last = some 4 ∧
      (programmed 0 even_after_odd).pending = none ∧
      ((run (pitx_reset PITX_8253) even_after_odd).channel 0).gate = true ∧
      ¬KeepsPeriod 0 3 4 (run (pitx_reset PITX_8253) even_after_odd) := by
  have hvalid := validBytes_even_after_odd
  refine ⟨⟨?_, by decide, by decide, by decide, by decide, ?_⟩, hvalid, by decide, by decide,
    by decide, by decide, ?_⟩
  · refine ⟨?_, ?_, ?_, ?_, ?_, ?_, ?_, ?_, trivial⟩ <;> exact binary (by decide)
  · intro h
    have hone := h.2 [.tick_channel 0] (by decide) (by decide)
    exact absurd hone (by decide)
  · intro h
    have hwhole := whole_of_history (by decide) PITX_8253 hvalid (by decide) (by decide) (by decide)
    have hlast : (programmed 0 even_after_odd).last = some 4 := by decide
    exact (keepsPeriod_iff (by decide) hwhole (by decide) hlast).mp h (by decide)

end blumach.pit_exact
