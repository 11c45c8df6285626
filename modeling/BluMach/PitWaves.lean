-- A channel of the 8253 or 8254 in mode 2 or 3, while its gate is high, is a generator of
-- waveforms.
import BluMach.PitCounts

namespace blumach.pit_exact

open PitxType PitxState waveform

/-! ## Loads -/

theorem load_counting_element_value (c : Channel) :
    (load_counting_element c).counting_element = loadValue c := by
  rw [load_eq, setElement_eq]
  unfold loadOutput set_output
  split
  all_goals first
    | rfl
    | (split_ifs <;> rfl)

/-- Half a count that is still being written is loaded as it is, and this is kept in mind. -/
theorem load_incomplete (c : Channel) :
    (load_counting_element c).incomplete_reload =
      if c.rw_mode = 3 ∧ c.write_phase = 1 then true else c.incomplete_reload := by
  rw [load_eq, setElement_eq]
  unfold loadOutput set_output
  split
  all_goals first
    | rfl
    | (split_ifs <;> rfl)

theorem load_mode2 {c : Channel} (hm : c.mode = 2) :
    (load_counting_element c).state = (if c.gate = true then PITX_COUNTING else PITX_WAIT_GATE) ∧
      (load_counting_element c).output = true ∧
      (load_counting_element c).toggle_on_reload = c.toggle_on_reload := by
  rw [load_eq, setElement_eq]
  unfold loadOutput set_output
  simp [hm]

theorem load_mode3 {c : Channel} (hm : c.mode = 3) :
    (load_counting_element c).state = (if c.gate = true then PITX_COUNTING else PITX_WAIT_GATE) ∧
      (load_counting_element c).output =
        (if c.toggle_on_reload = true then !c.output
          else if c.state ≠ PITX_RELOAD_NEXT then true else c.output) ∧
      (load_counting_element c).toggle_on_reload = false := by
  rw [load_eq, setElement_eq]
  unfold loadOutput set_output
  by_cases ht : c.toggle_on_reload = true
  · simp [hm, ht]
  · by_cases hs : c.state = PITX_RELOAD_NEXT
    · simp [hm, ht, hs]
    · simp [hm, ht, hs]

/-! ## Ticks of modes 2 and 3 -/

/-- How often a tick of mode 3 decrements. -/
def stride (c : Channel) : Nat :=
  if c.type ≠ PITX_8254 ∧ c.count_register &&& 1 ≠ 0 ∧ c.counting_element &&& 1 ≠ 0 then
    if c.output then 1 else 3
  else 2

def mode3Value (c : Channel) : Nat := (decrementValue c.bcd)^[stride c] c.counting_element

/-- The toggle waits for a clock. -/
def deferred (c : Channel) : Prop :=
  c.type = PITX_8254 ∧ c.count_register &&& 1 ≠ 0 ∧ c.output = true

instance (c : Channel) : Decidable (deferred c) := inferInstanceAs (Decidable (_ ∧ _))

/-- The branches of the two chips are one but for the stride and the deferred toggle. -/
theorem count_mode3_eq {c : Channel} (hm : c.mode = 3) :
    count_mode3 c =
      if visible_count (mode3Value c) = 0 then
        if deferred c then
          { setElement (mode3Value c) c with toggle_on_reload := true, state := PITX_RELOAD_NEXT }
        else
          update_live_latch
            { set_output (setElement (mode3Value c) c) (!c.output) with
              counting_element := loadValue c }
      else setElement (mode3Value c) c := by
  have h1 := decrement_n_eq 0
  have h2 := decrement_n_eq 1
  have h3 := decrement_n_eq 2
  have hreload : ∀ v, reload_value (setElement v c) = reload_value c := by
    intro v
    rw [setElement_eq]
    rfl
  have hout : ∀ v, (setElement v c).output = c.output := by
    intro v
    rw [setElement_eq]
  unfold count_mode3 mode3Value stride deferred loadValue
  by_cases ht : c.type = PITX_8254
  all_goals
    by_cases hodd : c.count_register &&& 1 = 0
    all_goals
      by_cases hce : c.counting_element &&& 1 = 0
      all_goals
        by_cases ho : c.output = true
        all_goals
          simp only [ht, hodd, hce, ho, hm, h1, h2, h3, setElement_counting_element, hreload,
            hout, ne_eq, not_true_eq_false, not_false_eq_true, and_true, and_false, if_true,
            if_false, and_self, Bool.false_eq_true, Bool.not_true, Bool.not_false]
          try rfl

theorem countTick_mode2 {c : Channel} (hm : c.mode = 2) (hg : c.gate = true) :
    countTick c =
      if visible_count (decrementValue c.bcd c.counting_element) = 1 then
        { set_output (setElement (decrementValue c.bcd c.counting_element) c) false with
          state := PITX_RELOAD_NEXT }
      else setElement (decrementValue c.bcd c.counting_element) c := by
  unfold countTick
  rw [hm]
  simp only [hg, if_true, decrement_eq, setElement_counting_element]

/-! ## The generator of a channel -/

def stageState : Stage → PitxState
  | .load => PITX_LOAD_NEXT
  | .reload => PITX_RELOAD_NEXT
  | .counting => PITX_COUNTING

/-- The channel does what the generator does from the wave on. -/
structure Shows (g : Generator) (w : Wave) (c : Channel) : Prop where
  mode : c.mode = if g.square = true then 3 else 2
  gate : c.gate = true
  masks : g.masks = true ↔ c.type = PITX_8254
  m : g.m = modulus c.bcd
  n : g.n = divisor c
  register : ValidRegister c
  state : c.state = stageState w.stage
  output : c.output = w.out
  toggle : c.toggle_on_reload = w.toggle
  pulse : g.square = false → w.toggle = false
  counts : w.stage = .counting →
    ValidCount c.bcd c.counting_element ∧ count c.bcd c.counting_element = w.x

theorem divisor_of_fixed {c c' : Channel} (h : Fixed c c') : divisor c' = divisor c := by
  unfold divisor reload_value
  rw [h.bcd, h.count_register]

theorem validRegister_of_fixed {c c' : Channel} (h : Fixed c c') (hv : ValidRegister c) :
    ValidRegister c' := by
  unfold ValidRegister
  rw [h.bcd, h.count_register]
  exact hv

variable {g : Generator} {w : Wave} {c : Channel}

theorem Shows.odd (h : Shows g w c) : c.count_register &&& 1 ≠ 0 ↔ g.n % 2 = 1 := by
  rw [odd_register h.register, h.n]

/-- What the load of the channel stores is what the generator loads. -/
theorem Shows.loadValue (h : Shows g w c) :
    ValidCount c.bcd (loadValue c) ∧ count c.bcd (loadValue c) = g.loaded := by
  have hmode := h.mode
  unfold pit_exact.loadValue Generator.loaded
  by_cases hs : g.square = true
  · rw [if_pos hs] at hmode
    by_cases hm : g.masks = true
    · have ht := h.masks.mp hm
      by_cases hodd : c.count_register &&& 1 ≠ 0
      · rw [if_pos ⟨ht, hmode, hodd⟩, if_pos ⟨hs, hm⟩, h.n]
        exact count_masked h.register hodd
      · have hn : ¬g.n % 2 = 1 := fun hn => hodd (h.odd.mpr hn)
        have heven : g.n - g.n % 2 = divisor c := by
          rw [← h.n]
          omega
        rw [if_neg (fun h => hodd h.2.2), if_pos ⟨hs, hm⟩, heven]
        exact ⟨validCount_reload h.register, rfl⟩
    · rw [if_neg (fun hc => hm (h.masks.mpr hc.1)), if_neg (fun h => hm h.2), h.n]
      exact ⟨validCount_reload h.register, rfl⟩
  · rw [if_neg hs] at hmode
    rw [if_neg (by omega), if_neg (fun h => hs h.1), h.n]
    exact ⟨validCount_reload h.register, rfl⟩

/-- What a tick keeps is the generator itself. -/
theorem Shows.of_fixed (h : Shows g w c) {c' : Channel} {w' : Wave} (hf : Fixed c c')
    (hstate : c'.state = stageState w'.stage) (hout : c'.output = w'.out)
    (htoggle : c'.toggle_on_reload = w'.toggle) (hpulse : g.square = false → w'.toggle = false)
    (hcounts : w'.stage = .counting →
      ValidCount c.bcd c'.counting_element ∧ count c.bcd c'.counting_element = w'.x) :
    Shows g w' c' where
  mode := hf.mode.trans h.mode
  gate := hf.gate.trans h.gate
  masks := by rw [hf.type]; exact h.masks
  m := by rw [hf.bcd]; exact h.m
  n := by rw [divisor_of_fixed hf]; exact h.n
  register := validRegister_of_fixed hf h.register
  state := hstate
  output := hout
  toggle := htoggle
  pulse := hpulse
  counts := by rw [hf.bcd]; exact hcounts

theorem shows_load (h : Shows g w c) (hst : w.stage ≠ .counting) :
    Shows g (g.load w) (load_counting_element c) := by
  have hmode := h.mode
  have hvalue := h.loadValue
  have hcounts : (g.load w).stage = .counting → ValidCount c.bcd
      (load_counting_element c).counting_element ∧
        count c.bcd (load_counting_element c).counting_element = (g.load w).x := by
    intro _
    rw [load_counting_element_value]
    exact hvalue
  by_cases hs : g.square = true
  · rw [if_pos hs] at hmode
    obtain ⟨hstate, hout, htoggle⟩ := load_mode3 hmode
    rw [if_pos h.gate] at hstate
    refine h.of_fixed (fixed_load c) hstate ?_ htoggle (fun _ => rfl) hcounts
    rw [hout, h.toggle, h.output, h.state]
    unfold Generator.load
    rw [if_pos hs]
    cases hstage : w.stage with
    | load => rfl
    | reload => rfl
    | counting => exact absurd hstage hst
  · rw [if_neg hs] at hmode
    obtain ⟨hstate, hout, htoggle⟩ := load_mode2 hmode
    rw [if_pos h.gate] at hstate
    refine h.of_fixed (fixed_load c) hstate ?_ ?_ (fun _ => rfl) hcounts
    · rw [hout]
      unfold Generator.load
      rw [if_neg hs]
    · rw [htoggle, h.toggle, h.pulse (Bool.eq_false_iff.mpr hs)]
      rfl

section

variable (h : Shows g w c) (hst : w.stage = .counting)

include h hst

theorem Shows.stride : stride c = g.stride w := by
  obtain ⟨hvalid, hcount⟩ := h.counts hst
  have hodd : c.counting_element &&& 1 ≠ 0 ↔ w.x % 2 = 1 := by
    rw [Nat.and_one_is_mod, ← count_mod_two hvalid, hcount]
    omega
  have hmasks : c.type ≠ PITX_8254 ↔ g.masks = false := by
    rw [Ne, ← h.masks, Bool.not_eq_true]
  unfold pit_exact.stride Generator.stride
  simp only [hmasks, h.odd, hodd, h.output]

theorem Shows.mode3Value :
    ValidCount c.bcd (mode3Value c) ∧ count c.bcd (mode3Value c) = g.next w := by
  obtain ⟨hvalid, hcount⟩ := h.counts hst
  have hiter := iterate_decrement hvalid (pit_exact.stride c)
  unfold pit_exact.mode3Value Generator.next
  rw [hcount, h.stride hst, ← h.m] at hiter
  rw [h.stride hst]
  exact hiter

theorem Shows.visible_mode3 : visible_count (pit_exact.mode3Value c) = 0 ↔ g.next w = 0 := by
  obtain ⟨hvalid, hcount⟩ := h.mode3Value hst
  have hx : w.x ≤ g.m := by
    obtain ⟨hv, hc⟩ := h.counts hst
    rw [← hc, h.m]
    exact hv.count_le
  have hlt : g.next w < g.m := next_lt hx
  rw [visible_count_eq_zero hvalid, hcount, ← h.m]
  omega

end

theorem Shows.deferred (h : Shows g w c) : deferred c ↔ g.defers w := by
  unfold pit_exact.deferred Generator.defers
  rw [h.odd, h.masks, h.output]

theorem shows_count_mode3 (h : Shows g w c) (hst : w.stage = .counting)
    (hs : g.square = true) : Shows g (g.tick w) (count_mode3 c) := by
  have hmode : c.mode = 3 := by rw [h.mode, if_pos hs]
  have hsquare : g.square = false → (g.tick w).toggle = false := by
    intro hs'
    rw [hs] at hs'
    exact absurd hs' (by decide)
  have htick : g.tick w =
      if g.next w = 0 then
        if g.defers w then { w with x := 0, toggle := true, stage := .reload }
        else { w with x := g.loaded, out := !w.out }
      else { w with x := g.next w } := by
    unfold Generator.tick
    rw [hst]
    exact if_pos hs
  have hstate : c.state = PITX_COUNTING := by rw [h.state, hst]; rfl
  obtain ⟨hvalid, hcount⟩ := h.mode3Value hst
  have heq := count_mode3_eq hmode
  have hfixed := fixed_count_mode3 c
  by_cases hzero : g.next w = 0
  · have hvis := (h.visible_mode3 hst).mpr hzero
    by_cases hd : g.defers w
    · rw [if_pos hvis, if_pos (h.deferred.mpr hd), setElement_eq] at heq
      rw [if_pos hzero, if_pos hd] at htick
      refine h.of_fixed hfixed ?_ ?_ ?_ hsquare ?_
      · rw [heq, htick]; rfl
      · rw [heq, htick]; exact h.output
      · rw [heq, htick]
      · rw [htick]; exact nofun
    · rw [if_pos hvis, if_neg (fun hc => hd (h.deferred.mp hc)), setElement_eq,
        update_live_latch_eq] at heq
      rw [if_pos hzero, if_neg hd] at htick
      refine h.of_fixed hfixed ?_ ?_ ?_ hsquare ?_
      · rw [heq, htick, hst]; exact hstate
      · rw [heq, htick]; exact congrArg (!·) h.output
      · rw [heq, htick]; exact h.toggle
      · intro _
        rw [heq, htick]
        exact h.loadValue
  · rw [if_neg (fun hc => hzero ((h.visible_mode3 hst).mp hc)), setElement_eq] at heq
    rw [if_neg hzero] at htick
    refine h.of_fixed hfixed ?_ ?_ ?_ hsquare ?_
    · rw [heq, htick, hst]; exact hstate
    · rw [heq, htick]; exact h.output
    · rw [heq, htick]; exact h.toggle
    · intro _
      rw [heq, htick]
      exact ⟨hvalid, hcount⟩

theorem shows_count_mode2 (h : Shows g w c) (hst : w.stage = .counting)
    (hs : g.square = false) : Shows g (g.tick w) (countTick c) := by
  have hs' : ¬g.square = true := by rw [hs]; decide
  have hmode : c.mode = 2 := by rw [h.mode, if_neg hs']
  have htick : g.tick w =
      if countDown g.m w.x = 1 then { w with x := 1, out := false, stage := .reload }
      else { w with x := countDown g.m w.x } := by
    unfold Generator.tick
    rw [hst]
    exact if_neg hs'
  have hstate : c.state = PITX_COUNTING := by rw [h.state, hst]; rfl
  have htoggle := h.pulse hs
  obtain ⟨hvalid, hcount⟩ := h.counts hst
  have hnext := validCount_decrement hvalid
  have hnextCount : count c.bcd (decrementValue c.bcd c.counting_element) =
      countDown g.m w.x := by
    rw [count_decrement hvalid, hcount, h.m]
  have heq := countTick_mode2 hmode h.gate
  rw [setElement_eq] at heq
  have hfixed := fixed_countTick c
  by_cases hone : countDown g.m w.x = 1
  · rw [if_pos ((visible_count_eq_one hnext).mpr (hnextCount.trans hone))] at heq
    rw [if_pos hone] at htick
    refine h.of_fixed hfixed ?_ ?_ ?_ ?_ ?_
    · rw [heq, htick]; rfl
    · rw [heq, htick]; rfl
    · rw [heq, htick]; exact h.toggle
    · intro _; rw [htick]; exact htoggle
    · rw [htick]; exact nofun
  · rw [if_neg (fun hc => hone (hnextCount.symm.trans ((visible_count_eq_one hnext).mp hc)))]
      at heq
    rw [if_neg hone] at htick
    refine h.of_fixed hfixed ?_ ?_ ?_ ?_ ?_
    · rw [heq, htick, hst]; exact hstate
    · rw [heq, htick]; exact h.output
    · rw [heq, htick]; exact h.toggle
    · intro _; rw [htick]; exact htoggle
    · intro _
      rw [heq, htick]
      exact ⟨hnext, hnextCount⟩

/-- A tick of the channel is a tick of its generator. -/
theorem shows_tick (h : Shows g w c) : Shows g (g.tick w) (tick c) := by
  have hstate := h.state
  unfold tick
  cases hst : w.stage with
  | load =>
    rw [hst] at hstate
    have htick : g.tick w = g.load w := by unfold Generator.tick; rw [hst]
    rw [hstate, htick]
    exact shows_load h (by rw [hst]; nofun)
  | reload =>
    rw [hst] at hstate
    have htick : g.tick w = g.load w := by unfold Generator.tick; rw [hst]
    rw [hstate, htick]
    exact shows_load h (by rw [hst]; nofun)
  | counting =>
    rw [hst] at hstate
    rw [hstate]
    cases hs : g.square with
    | true =>
      have hmode : c.mode = 3 := by rw [h.mode, if_pos hs]
      have heq : countTick c = count_mode3 c := by
        unfold countTick
        rw [hmode]
        exact if_pos h.gate
      exact heq ▸ shows_count_mode3 h hst hs
    | false => exact shows_count_mode2 h hst hs

theorem shows_ticks (h : Shows g w c) (k : Nat) : Shows g (g.tick^[k] w) (tick^[k] c) := by
  induction k with
  | zero => exact h
  | succ k ih =>
    rw [Function.iterate_succ_apply', Function.iterate_succ_apply']
    exact shows_tick ih

/-! ## Reloads -/

/-- The tick from here stores the count register's value to the counting element. -/
def reloads (c : Channel) : Prop :=
  match c.state with
  | PITX_LOAD_NEXT => True
  | PITX_RELOAD_NEXT => True
  | PITX_COUNTING =>
    c.mode = 3 ∧ c.gate = true ∧ visible_count (mode3Value c) = 0 ∧ ¬deferred c
  | _ => False

theorem Shows.reloads (h : Shows g w c) : reloads c ↔ g.reloads w := by
  have hstate := h.state
  unfold pit_exact.reloads Generator.reloads
  cases hst : w.stage with
  | load => rw [hst] at hstate; rw [hstate]; exact Iff.rfl
  | reload => rw [hst] at hstate; rw [hstate]; exact Iff.rfl
  | counting =>
    rw [hst] at hstate
    rw [hstate]
    simp only [stageState]
    rw [h.visible_mode3 hst, h.deferred, h.mode]
    constructor
    · rintro ⟨hmode, -, hzero, hd⟩
      refine ⟨?_, hzero, hd⟩
      by_contra hs
      rw [if_neg hs] at hmode
      omega
    · rintro ⟨hs, hzero, hd⟩
      exact ⟨if_pos hs, h.gate, hzero, hd⟩

end blumach.pit_exact
