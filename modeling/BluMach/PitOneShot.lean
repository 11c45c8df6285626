-- Modes 0, 1, 4 and 5 of the 8253 and 8254 are one-shot timers, until the counter of a
-- strobe comes round.
import BluMach.OneShot
import BluMach.PitHistory

namespace blumach.pit_exact

open PitxType PitxState waveform decimal one_shot

/-! ## Counts and their calls -/

/-- The part of a count that the access mode writes. -/
def written (access : Nat) (n : BitVec 16) : BitVec 16 :=
  if access = 1 then n &&& 0x00ff#16 else if access = 2 then n &&& 0xff00#16 else n

/-- The clocks that a count stands for. -/
def clocks (bcd : Bool) (access : Nat) (n : BitVec 16) : Nat :=
  if written access n = 0 then modulus bcd else count bcd (written access n).toNat

def countBytes (access : Nat) (n : BitVec 16) : List (BitVec 8) :=
  if access = 1 then [n.setWidth 8]
  else if access = 2 then [(n >>> 8).setWidth 8]
  else [n.setWidth 8, (n >>> 8).setWidth 8]

/-- A count is written whole. -/
def callsOf (ch access : Nat) : Event (BitVec 16) → List Call
  | .tick => [.tick_channel ch]
  | .gate level => [.set_gate ch level]
  | .write n => (countBytes access n).map (.data_write ch)

/-- What the calls of an event do to the channel. -/
def channelEvent (access : Nat) (c : Channel) : Event (BitVec 16) → Channel
  | .tick => tick c
  | .gate level => setGate level c
  | .write n => (countBytes access n).foldl (fun c value => dataWrite value c) c

theorem low_byte (n : BitVec 16) : (n.setWidth 8).setWidth 16 = n &&& 0x00ff#16 := by
  apply BitVec.eq_of_toNat_eq
  rw [toNat_low, BitVec.toNat_setWidth, BitVec.toNat_and]
  exact (Nat.and_two_pow_sub_one_eq_mod n.toNat 8).symm

theorem high_byte (n : BitVec 16) :
    ((n >>> 8).setWidth 8).setWidth 16 <<< 8 = n &&& 0xff00#16 := by
  have hn := n.isLt
  have hmask : n.toNat &&& 0xff00 = n.toNat / 2 ^ 8 % 2 ^ 8 * 2 ^ 8 := and_field n.toNat 8 8
  apply BitVec.eq_of_toNat_eq
  have h0 : (0xff00#16).toNat = 0xff00 := rfl
  rw [toNat_high, BitVec.toNat_setWidth, BitVec.toNat_ushiftRight, BitVec.toNat_and, h0, hmask,
    Nat.shiftRight_eq_div_pow]
  omega

theorem both_bytes (r n : BitVec 16) :
    (r &&& 0xff00#16 ||| (n.setWidth 8).setWidth 16) &&& 0x00ff#16 |||
      ((n >>> 8).setWidth 8).setWidth 16 <<< 8 = n := by
  have hn := n.isLt
  apply BitVec.eq_of_toNat_eq
  rw [toNat_with_high, toNat_with_low, BitVec.toNat_setWidth, BitVec.toNat_setWidth,
    BitVec.toNat_ushiftRight, Nat.shiftRight_eq_div_pow]
  omega

/-- Writing a whole count, from no half of another. -/
theorem write_eq {access : Nat} {c : Channel} (hrw : c.rw_mode = access)
    (ha : access = 1 ∨ access = 2 ∨ access = 3) (hwp : c.write_phase = 0) (n : BitVec 16) :
    channelEvent access c (.write n) =
      finalize_write
        { c with
          count_register := written access n
          state := if access = 3 ∧ c.mode = 0 then PITX_WAIT_COUNT else c.state
          output := if access = 3 ∧ c.mode = 0 then false else c.output } := by
  unfold channelEvent countBytes written
  rcases ha with ha | ha | ha
  · subst ha
    simp only [if_true, List.foldl_cons, List.foldl_nil, dataWrite_lsb hrw, low_byte]
    rfl
  · subst ha
    have h21 : ¬2 = 1 := by decide
    simp only [if_true, if_neg h21, List.foldl_cons, List.foldl_nil, dataWrite_msb hrw, high_byte]
    rfl
  · subst ha
    have h31 : ¬3 = 1 := by decide
    have h32 : ¬3 = 2 := by decide
    simp only [if_neg h31, if_neg h32, List.foldl_cons, List.foldl_nil, true_and,
      dataWrite_first hrw hwp]
    refine (dataWrite_second ?_ ?_ _).trans ?_
    · exact hrw
    · rfl
    · simp only [both_bytes, hwp]

/-! ## The one-shot of a channel -/

def shotOf (mode access : Nat) (bcd : Bool) : OneShot where
  triggered := mode = 1 ∨ mode = 5
  strobes := mode = 4 ∨ mode = 5
  drops := mode = 0 ∧ access = 3
  m := modulus bcd

/-- Where the channel is when the one-shot is in its phase. -/
def PhaseOf (t : OneShot) (c : Channel) : Phase → Prop
  | .idle => c.state = PITX_WAIT_COUNT
  | .ready => c.state = PITX_WAIT_TRIGGER
  | .loading => c.state = PITX_LOAD_NEXT ∧ (t.triggered = true → c.armed = true)
  | .counting left =>
    c.state = PITX_COUNTING ∧ ValidCount c.bcd c.counting_element ∧
      count c.bcd c.counting_element = left ∧ 1 ≤ left ∧ (t.triggered = true → c.armed = true)
  | .pulse =>
    c.state = PITX_STROBE_RECOVER ∧ ValidCount c.bcd c.counting_element ∧
      count c.bcd c.counting_element = 0
  | .spent since =>
    c.state = PITX_COUNTING ∧ ValidCount c.bcd c.counting_element ∧ c.output = true ∧
      (t.strobes = true → since < t.m ∧
        count c.bcd c.counting_element = if since = 0 then 0 else t.m - since)

structure Fires (t : OneShot) (s : Shot) (c : Channel) : Prop where
  kind : t = shotOf c.mode c.rw_mode c.bcd
  mode : c.mode = 0 ∨ c.mode = 1 ∨ c.mode = 4 ∨ c.mode = 5
  access : c.rw_mode = 1 ∨ c.rw_mode = 2 ∨ c.rw_mode = 3
  whole : c.write_phase = 0
  complete : c.incomplete_reload = false
  gate : c.gate = s.gate
  out : c.output = s.out
  initial : c.initial_load = true ↔ s.phase = .idle
  count : s.phase ≠ .idle → ValidRegister c ∧ divisor c = s.n
  phase : PhaseOf t c s.phase

/-! ## Ticks -/

theorem load_oneShot {c : Channel} (hm : c.mode = 0 ∨ c.mode = 1 ∨ c.mode = 4 ∨ c.mode = 5) :
    (load_counting_element c).state = PITX_COUNTING ∧
      (load_counting_element c).output = decide (c.mode = 4 ∨ c.mode = 5) ∧
      (load_counting_element c).armed = c.armed ∧
      (load_counting_element c).counting_element = reload_value c := by
  have hvalue : loadValue c = reload_value c := if_neg (by omega)
  have hce := load_counting_element_value c
  rw [hvalue] at hce
  refine ⟨?_, ?_, ?_, hce⟩
  all_goals
    rw [load_eq, setElement_eq]
    unfold loadOutput set_output
    rcases hm with hm | hm | hm | hm <;> simp [hm]

/-- What a counting tick of these modes does, when it is enabled and when it ends. -/
theorem countTick_oneShot {c : Channel}
    (hm : c.mode = 0 ∨ c.mode = 1 ∨ c.mode = 4 ∨ c.mode = 5) :
    countTick c =
      if (c.mode = 0 ∨ c.mode = 4) ∧ c.gate = false then c
      else if visible_count (decrementValue c.bcd c.counting_element) = 0 then
        { setElement (decrementValue c.bcd c.counting_element) c with
          output :=
            if c.mode = 0 then true else if c.mode = 1 then c.armed || c.output else false
          armed := if c.mode = 1 ∨ c.mode = 5 then false else c.armed
          state := if c.mode = 4 ∨ c.mode = 5 then PITX_STROBE_RECOVER else c.state }
      else setElement (decrementValue c.bcd c.counting_element) c := by
  unfold countTick
  simp only [decrement_eq, set_output, setElement_eq]
  rcases hm with hm | hm | hm | hm
  · cases hg : c.gate <;> simp [hm]
  · cases ha : c.armed <;> simp [hm]
  · cases hg : c.gate <;> simp [hm]
  · simp [hm]

section

variable {t : OneShot} {s : Shot} {c : Channel}

theorem Fires.triggered (h : Fires t s c) : t.triggered = true ↔ c.mode = 1 ∨ c.mode = 5 := by
  rw [h.kind]
  exact decide_eq_true_iff

theorem Fires.strobes (h : Fires t s c) : t.strobes = true ↔ c.mode = 4 ∨ c.mode = 5 := by
  rw [h.kind]
  exact decide_eq_true_iff

theorem Fires.m (h : Fires t s c) : t.m = modulus c.bcd := by
  rw [h.kind]
  rfl

theorem Fires.enabled (h : Fires t s c) :
    t.enabled s = true ↔ ¬((c.mode = 0 ∨ c.mode = 4) ∧ c.gate = false) := by
  have hmode := h.mode
  have hgate := h.gate
  unfold OneShot.enabled
  rw [Bool.or_eq_true, h.triggered, ← hgate]
  cases c.gate
  · simp
    omega
  · simp

/-- A tick that only moves the count and the output on. -/
theorem Fires.of_fixed (h : Fires t s c) {c' : Channel} {s' : Shot} (hf : Fixed c c')
    (hinc : c'.incomplete_reload = c.incomplete_reload) (hgate : s'.gate = s.gate)
    (hn : s'.n = s.n) (hidle : s'.phase = .idle ↔ s.phase = .idle) (hout : c'.output = s'.out)
    (hphase : PhaseOf t c' s'.phase) : Fires t s' c' where
  kind := by rw [hf.mode, hf.rw_mode, hf.bcd]; exact h.kind
  mode := by rw [hf.mode]; exact h.mode
  access := by rw [hf.rw_mode]; exact h.access
  whole := hf.write_phase.trans h.whole
  complete := hinc.trans h.complete
  gate := by rw [hf.gate, hgate]; exact h.gate
  out := hout
  initial := by rw [hf.initial_load, hidle]; exact h.initial
  count := by
    intro hne
    obtain ⟨hvalid, hcount⟩ := h.count (fun he => hne (hidle.mpr he))
    exact ⟨validRegister_of_fixed hf hvalid, by rw [divisor_of_fixed hf, hcount, hn]⟩
  phase := hphase

theorem one_le_divisor : 1 ≤ divisor c := by
  have hm := two_lt_modulus c.bcd
  unfold divisor reload_value
  split_ifs with h0
  · have hz : pit_exact.count c.bcd c.count_register.toNat ≠ 0 := by
      rw [Ne, count_eq_zero c.count_register.isLt]
      exact fun h => h0 (BitVec.eq_of_toNat_eq h)
    omega
  · rw [count_top]
    omega

theorem fires_load (h : Fires t s c) (hp : s.phase = .loading) :
    Fires t (t.tick s) (tick c) := by
  have hphase := h.phase
  rw [hp] at hphase
  obtain ⟨hst, harmed⟩ := hphase
  obtain ⟨hvalid, hcount⟩ := h.count (by rw [hp]; nofun)
  have hload := load_oneShot h.mode
  have htick : tick c = load_counting_element c := by unfold tick; rw [hst]
  have hshot : t.tick s = { s with phase := .counting s.n, out := t.strobes } := by
    unfold OneShot.tick
    rw [hp]
  have hfixed := fixed_load c
  rw [htick, hshot]
  refine h.of_fixed hfixed ?_ rfl rfl ?_ ?_ ?_
  · rw [load_incomplete, if_neg]
    intro hhalf
    have hwhole := h.whole
    omega
  · rw [hp]
    exact ⟨nofun, nofun⟩
  · rw [hload.2.1, Bool.eq_iff_iff, decide_eq_true_iff]
    exact h.strobes.symm
  · refine ⟨hload.1, ?_, ?_, ?_, ?_⟩
    · rw [hfixed.bcd, hload.2.2.2]
      exact validCount_reload hvalid
    · rw [hfixed.bcd, hload.2.2.2]
      exact hcount
    · rw [← hcount]
      exact one_le_divisor
    · rw [hload.2.2.1]
      exact harmed

/-- The count after an enabled tick, and when that ends it. -/
theorem Fires.decrement (h : Fires t s c) (hv : ValidCount c.bcd c.counting_element) :
    ValidCount c.bcd (decrementValue c.bcd c.counting_element) ∧
      pit_exact.count c.bcd (decrementValue c.bcd c.counting_element) =
        countDown t.m (pit_exact.count c.bcd c.counting_element) ∧
      (visible_count (decrementValue c.bcd c.counting_element) = 0 ↔
        countDown t.m (pit_exact.count c.bcd c.counting_element) = 0) := by
  have hnext := validCount_decrement hv
  have hcount := count_decrement hv
  have hm := two_lt_modulus c.bcd
  have hle := hv.count_le
  rw [← h.m] at hcount
  refine ⟨hnext, hcount, ?_⟩
  have hlt : countDown t.m (pit_exact.count c.bcd c.counting_element) < t.m := by
    rw [h.m]
    exact countDown_lt (by omega) hle
  rw [visible_count_eq_zero hnext, hcount, ← h.m]
  omega

theorem fires_counting (h : Fires t s c) {left : Nat} (hp : s.phase = .counting left) :
    Fires t (t.tick s) (tick c) := by
  have hphase := h.phase
  rw [hp] at hphase
  obtain ⟨hst, hvalid, hcount, hleft, harmed⟩ := hphase
  have htick : tick c = countTick c := by unfold tick; rw [hst]
  have heq := countTick_oneShot h.mode
  have hfixed := fixed_countTick c
  obtain ⟨hnext, hnextCount, hvis⟩ := h.decrement hvalid
  rw [hcount, countDown_pos hleft] at hnextCount hvis
  rw [setElement_eq] at heq
  rw [htick]
  by_cases hen : t.enabled s = true
  · rw [if_neg (h.enabled.mp hen)] at heq
    by_cases hone : left = 1
    · rw [if_pos (hvis.mpr (by omega))] at heq
      have hzero : pit_exact.count c.bcd (decrementValue c.bcd c.counting_element) = 0 := by
        omega
      by_cases hs : t.strobes = true
      · have h45 := h.strobes.mp hs
        have hshot : t.tick s = { s with phase := .pulse, out := false } := by
          unfold OneShot.tick
          rw [hp]
          simp only [hen, hone, hs, if_true]
        rw [hshot]
        refine h.of_fixed hfixed (by rw [heq]) rfl rfl ?_ ?_ ?_
        · rw [hp]
          exact ⟨nofun, nofun⟩
        · rw [heq]
          simp only
          rw [if_neg (by omega), if_neg (by omega)]
        · rw [heq]
          exact ⟨if_pos h45, hnext, hzero⟩
      · have h45 : ¬(c.mode = 4 ∨ c.mode = 5) := fun hc => hs (h.strobes.mpr hc)
        have hmode := h.mode
        have hshot : t.tick s = { s with phase := .spent 0, out := true } := by
          unfold OneShot.tick
          rw [hp]
          simp only [hen, hone, if_true, if_neg hs]
        have hout : (countTick c).output = true := by
          rw [heq]
          simp only
          by_cases h0 : c.mode = 0
          · rw [if_pos h0]
          · have h1 : c.mode = 1 := by omega
            rw [if_neg h0, if_pos h1, harmed (h.triggered.mpr (.inl h1))]
            rfl
        rw [hshot]
        refine h.of_fixed hfixed (by rw [heq]) rfl rfl ?_ hout ?_
        · rw [hp]
          exact ⟨nofun, nofun⟩
        · refine ⟨?_, ?_, hout, fun hc => absurd hc hs⟩
          · rw [heq]
            simp only
            rw [if_neg h45]
            exact hst
          · rw [hfixed.bcd, heq]
            exact hnext
    · rw [if_neg (fun hc => hone (by have := hvis.mp hc; omega))] at heq
      have hshot : t.tick s = { s with phase := .counting (left - 1) } := by
        unfold OneShot.tick
        rw [hp]
        simp only [hen, if_true, if_neg hone]
      rw [hshot]
      refine h.of_fixed hfixed (by rw [heq]) rfl rfl ?_ ?_ ?_
      · rw [hp]
        exact ⟨nofun, nofun⟩
      · rw [heq]
        exact h.out
      · rw [heq]
        exact ⟨hst, hnext, hnextCount, by omega, harmed⟩
  · have hdis : (c.mode = 0 ∨ c.mode = 4) ∧ c.gate = false := by
      by_contra hc
      exact hen (h.enabled.mpr hc)
    rw [if_pos hdis] at heq
    have hshot : t.tick s = s := by
      unfold OneShot.tick
      rw [hp]
      simp only [if_neg hen]
    rw [heq, hshot]
    exact h

theorem fires_pulse (h : Fires t s c) (hp : s.phase = .pulse) :
    Fires t (t.tick s) (tick c) := by
  have hphase := h.phase
  have hm := two_lt_modulus c.bcd
  have htm := h.m
  rw [hp] at hphase
  obtain ⟨hst, hvalid, hcount⟩ := hphase
  have htick : tick c = { set_output c true with state := PITX_COUNTING } := by
    unfold tick
    rw [hst]
  have hshot : t.tick s = { s with phase := .spent 0, out := true } := by
    unfold OneShot.tick
    rw [hp]
  rw [htick, hshot]
  refine h.of_fixed ⟨rfl, rfl, rfl, rfl, rfl, rfl, rfl, rfl⟩ rfl rfl rfl ?_ rfl ?_
  · rw [hp]
    exact ⟨nofun, nofun⟩
  · exact ⟨rfl, hvalid, rfl, fun _ => ⟨by omega, hcount⟩⟩

/-- After it fired, the counter of a strobe is one clock further. -/
theorem Fires.spent (h : Fires t s c) {since : Nat} (hp : s.phase = .spent since)
    (hs : t.strobes = true) (hv : ValidCount c.bcd c.counting_element) :
    since < t.m ∧ pit_exact.count c.bcd (decrementValue c.bcd c.counting_element) =
      t.m - (since + 1) := by
  have hphase := h.phase
  rw [hp] at hphase
  obtain ⟨-, -, -, hstrobe⟩ := hphase
  obtain ⟨hlt, hcount⟩ := hstrobe hs
  refine ⟨hlt, ?_⟩
  rw [(h.decrement hv).2.1, hcount]
  by_cases h0 : since = 0
  · rw [if_pos h0, countDown_zero]
    omega
  · rw [if_neg h0, countDown_pos (by omega)]
    omega

theorem fires_over (h : Fires t s c) {since : Nat} (hp : s.phase = .spent since)
    (hstop : t.strobes = true → (t.tick s).phase ≠ .spent t.m) : Fires t (t.tick s) (tick c) := by
  have hphase := h.phase
  rw [hp] at hphase
  obtain ⟨hst, hvalid, hhigh, -⟩ := hphase
  have htick : tick c = countTick c := by unfold tick; rw [hst]
  have heq := countTick_oneShot h.mode
  have hfixed := fixed_countTick c
  obtain ⟨hnext, hnextCount, hvis⟩ := h.decrement hvalid
  rw [setElement_eq] at heq
  rw [htick]
  by_cases hen : t.enabled s = true
  · have hshot : t.tick s = { s with phase := .spent (since + 1) } := by
      unfold OneShot.tick
      rw [hp]
      simp only [hen, if_true]
    rw [hshot] at hstop ⊢
    rw [if_neg (h.enabled.mp hen)] at heq
    have hout : (countTick c).output = true ∧ (countTick c).state = PITX_COUNTING ∧
        (countTick c).counting_element = decrementValue c.bcd c.counting_element := by
      by_cases hz : visible_count (decrementValue c.bcd c.counting_element) = 0
      · rw [if_pos hz] at heq
        have hns : ¬(c.mode = 4 ∨ c.mode = 5) := by
          intro h45
          have hs := h.strobes.mpr h45
          obtain ⟨hlt, hcount⟩ := h.spent hp hs hvalid
          have hzero := hvis.mp hz
          rw [← hnextCount, hcount] at hzero
          apply hstop hs
          have hlast : since + 1 = t.m := by omega
          rw [hlast]
        have hmode := h.mode
        rw [heq]
        refine ⟨?_, ?_, rfl⟩
        · simp only
          by_cases h0 : c.mode = 0
          · rw [if_pos h0]
          · have h1 : c.mode = 1 := by omega
            rw [if_neg h0, if_pos h1, hhigh, Bool.or_true]
        · simp only
          rw [if_neg hns]
          exact hst
      · rw [if_neg hz] at heq
        rw [heq]
        exact ⟨hhigh, hst, rfl⟩
    have hinc : (countTick c).incomplete_reload = c.incomplete_reload := by
      rw [heq]
      split_ifs <;> rfl
    refine h.of_fixed hfixed hinc rfl rfl ?_ (hout.1.trans (hhigh.symm.trans h.out)) ?_
    · rw [hp]
      exact ⟨nofun, nofun⟩
    · refine ⟨hout.2.1, ?_, hout.1, ?_⟩
      · rw [hfixed.bcd, hout.2.2]
        exact hnext
      · intro hs
        obtain ⟨hlt, hcount⟩ := h.spent hp hs hvalid
        have hne : since + 1 ≠ t.m := by
          intro hlast
          apply hstop hs
          rw [← hlast]
        rw [hfixed.bcd, hout.2.2, hcount, if_neg (by omega)]
        exact ⟨by omega, rfl⟩
  · have hdis : (c.mode = 0 ∨ c.mode = 4) ∧ c.gate = false := by
      by_contra hc
      exact hen (h.enabled.mpr hc)
    rw [if_pos hdis] at heq
    have hshot : t.tick s = s := by
      unfold OneShot.tick
      rw [hp]
      simp only [if_neg hen]
    rw [heq, hshot]
    exact h

theorem tick_wait_trigger (hst : c.state = PITX_WAIT_TRIGGER) :
    tick c = if c.ce_undefined ∧ c.armed then setElement 3 c else c := by
  unfold tick
  split
  all_goals first
    | rfl
    | (rename_i hs; rw [hst] at hs; cases hs)

theorem fires_tick (h : Fires t s c) (hstop : t.strobes = true → (t.tick s).phase ≠ .spent t.m) :
    Fires t (t.tick s) (tick c) := by
  cases hp : s.phase with
  | idle =>
    have hphase := h.phase
    rw [hp] at hphase
    have htick : tick c = c := by
      unfold tick
      have hst : c.state = PITX_WAIT_COUNT := hphase
      rw [hst]
    have hshot : t.tick s = s := by
      unfold OneShot.tick
      rw [hp]
    rw [htick, hshot]
    exact h
  | ready =>
    have hphase := h.phase
    rw [hp] at hphase
    have hst : c.state = PITX_WAIT_TRIGGER := hphase
    have hshot : t.tick s = s := by
      unfold OneShot.tick
      rw [hp]
    rw [hshot]
    rw [tick_wait_trigger hst, setElement_eq]
    by_cases hu : c.ce_undefined ∧ c.armed
    · rw [if_pos hu]
      refine h.of_fixed ⟨rfl, rfl, rfl, rfl, rfl, rfl, rfl, rfl⟩ rfl rfl rfl Iff.rfl h.out ?_
      rw [hp]
      exact hst
    · rw [if_neg hu]
      exact h
  | loading => exact fires_load h hp
  | counting left => exact fires_counting h hp
  | pulse => exact fires_pulse h hp
  | spent since => exact fires_over h hp hstop

/-- When the counter of a strobe comes round, it fires again. -/
theorem fires_again (h : Fires t s c) (hs : t.strobes = true) (hne : s.phase ≠ .spent t.m)
    (hwrap : (t.tick s).phase = .spent t.m) :
    (tick c).output = false ∧ (t.tick s).out = true := by
  have hm := two_lt_modulus c.bcd
  have htm := h.m
  unfold OneShot.tick at hwrap ⊢
  cases hp : s.phase with
  | idle => exact absurd hwrap (by simp [hp])
  | ready => exact absurd hwrap (by simp [hp])
  | loading => exact absurd hwrap (by simp [hp])
  | counting left =>
    rw [hp] at hwrap
    simp only [hs, if_true] at hwrap
    split_ifs at hwrap
    exact absurd hwrap hne
  | pulse =>
    rw [hp] at hwrap
    have h0 : 0 = t.m := Phase.spent.inj hwrap
    omega
  | spent since =>
    rw [hp] at hwrap
    simp only at hwrap ⊢
    split_ifs at hwrap with hen
    · have hlast : since + 1 = t.m := Phase.spent.inj hwrap
      have hphase := h.phase
      rw [hp] at hphase
      obtain ⟨hst, hvalid, hhigh, -⟩ := hphase
      have h45 := h.strobes.mp hs
      obtain ⟨hlt, hcount⟩ := h.spent hp hs hvalid
      obtain ⟨-, hnextCount, hvis⟩ := h.decrement hvalid
      have hz := hvis.mpr (by rw [← hnextCount, hcount]; omega)
      have heq := countTick_oneShot h.mode
      rw [if_neg (h.enabled.mp hen), if_pos hz] at heq
      have htick : tick c = countTick c := by unfold tick; rw [hst]
      rw [htick, heq, if_pos hen]
      refine ⟨?_, h.out.symm.trans hhigh⟩
      simp only
      rw [if_neg (by omega), if_neg (by omega)]
    · exact absurd hwrap hne

/-! ## Gate and counts -/

theorem setGate_oneShot (hm : c.mode = 0 ∨ c.mode = 1 ∨ c.mode = 4 ∨ c.mode = 5) (gate : Bool) :
    setGate gate c =
      if (c.mode = 1 ∨ c.mode = 5) ∧ c.gate = false ∧ gate = true ∧ c.state ≠ PITX_WAIT_COUNT then
        { c with gate := gate, armed := true, state := PITX_LOAD_NEXT }
      else { c with gate := gate } := by
  unfold setGate
  rcases hm with hm | hm | hm | hm
  all_goals
    cases hg : c.gate <;> cases gate <;> by_cases hs : c.state = PITX_WAIT_COUNT <;>
      simp [hm, hs]

theorem phase_idle_iff (h : Fires t s c) : c.state = PITX_WAIT_COUNT ↔ s.phase = .idle := by
  have hphase := h.phase
  cases hp : s.phase with
  | idle => rw [hp] at hphase; exact ⟨fun _ => rfl, fun _ => hphase⟩
  | ready =>
    rw [hp] at hphase
    have hst : c.state = PITX_WAIT_TRIGGER := hphase
    simp [hst]
  | loading => rw [hp] at hphase; simp [hphase.1]
  | counting left => rw [hp] at hphase; simp [hphase.1]
  | pulse => rw [hp] at hphase; simp [hphase.1]
  | spent since => rw [hp] at hphase; simp [hphase.1]

theorem fires_setGate (h : Fires t s c) (gate : Bool) :
    Fires t (t.setGate gate s) (setGate gate c) := by
  have hidle := phase_idle_iff h
  have heq := setGate_oneShot h.mode gate
  have hgate := h.gate
  have hphase := h.phase
  by_cases hrise : (c.mode = 1 ∨ c.mode = 5) ∧ c.gate = false ∧ gate = true ∧
      c.state ≠ PITX_WAIT_COUNT
  · obtain ⟨h15, hlow, hhigh, hst⟩ := hrise
    have hnot : s.phase ≠ .idle := fun hp => hst (hidle.mpr hp)
    have hshot : t.setGate gate s = { s with gate := gate, phase := .loading } := by
      unfold OneShot.setGate
      rw [if_pos ⟨h.triggered.mpr h15, hgate ▸ hlow, hhigh, hnot⟩]
    rw [if_pos ⟨h15, hlow, hhigh, hst⟩] at heq
    rw [heq, hshot]
    refine ⟨h.kind, h.mode, h.access, h.whole, h.complete, rfl, h.out, ?_, fun _ => h.count hnot,
      rfl, fun _ => rfl⟩
    exact ⟨fun hi => absurd (h.initial.mp hi) hnot, nofun⟩
  · have hshot : t.setGate gate s = { s with gate := gate } := by
      unfold OneShot.setGate
      rw [if_neg]
      rintro ⟨ht, hlow, hhigh, hnot⟩
      exact hrise ⟨h.triggered.mp ht, hgate.trans hlow, hhigh, fun hst => hnot (hidle.mp hst)⟩
    rw [if_neg hrise] at heq
    rw [heq, hshot]
    refine ⟨h.kind, h.mode, h.access, h.whole, h.complete, rfl, h.out, h.initial, h.count, ?_⟩
    cases hp : s.phase <;> rw [hp] at hphase <;> exact hphase

theorem replaceOne_oneShot (hm : c.mode = 0 ∨ c.mode = 1 ∨ c.mode = 4 ∨ c.mode = 5)
    (n : BitVec 16) : replaceOne c.mode n = n := by
  have h2 : ¬c.mode = 2 := by omega
  have h3 : ¬c.mode = 3 := by omega
  unfold replaceOne
  rw [if_neg h2, if_neg h3, ite_self]

theorem fires_write (h : Fires t s c) (n : BitVec 16)
    (hn : c.bcd = true → IsDecimal (written c.rw_mode n).toNat) :
    Fires t (t.write (clocks c.bcd c.rw_mode n) s) (channelEvent c.rw_mode c (.write n)) := by
  have hmode := h.mode
  have hphase := h.phase
  have hidle := phase_idle_iff h
  have hdrops : t.drops = true ↔ c.rw_mode = 3 ∧ c.mode = 0 := by
    rw [h.kind]
    exact decide_eq_true_iff.trans And.comm
  have heq := write_eq rfl h.access h.whole n
  rw [finalize_eq] at heq
  simp only [replaceOne_oneShot h.mode] at heq
  have hcount : ∀ d : Channel, d.bcd = c.bcd → d.count_register = written c.rw_mode n →
      ValidRegister d ∧ divisor d = clocks c.bcd c.rw_mode n := by
    intro d hb hr
    unfold ValidRegister divisor reload_value clocks
    rw [hb, hr]
    refine ⟨hn, ?_⟩
    by_cases h0 : written c.rw_mode n = 0
    · rw [if_neg (fun h => h h0), if_pos h0, count_top]
    · rw [if_pos h0, if_neg h0]
  have hout : (channelEvent c.rw_mode c (.write n)).output =
      (t.write (clocks c.bcd c.rw_mode n) s).out := by
    rw [heq]
    unfold OneShot.write
    simp only [hdrops]
    rw [h.out]
  -- a triggered one only starts to wait for its trigger
  have hnext : PhaseOf t (channelEvent c.rw_mode c (.write n))
      (t.write (clocks c.bcd c.rw_mode n) s).phase := by
    have hinit := h.initial
    unfold OneShot.write
    simp only
    by_cases h15 : c.mode = 1 ∨ c.mode = 5
    · have hnot : ¬(c.rw_mode = 3 ∧ c.mode = 0) := by omega
      have hnot' : ¬(c.incomplete_reload = true ∨ c.mode = 0 ∨ c.mode = 4) := by
        rw [h.complete]
        rintro (hc | hc)
        · cases hc
        · omega
      rw [if_pos (h.triggered.mpr h15), heq]
      by_cases hp : s.phase = .idle
      · rw [if_pos hp]
        unfold PhaseOf
        simp only
        rw [if_pos (hinit.mpr hp), if_pos h15]
      · rw [if_neg hp]
        have hi : ¬c.initial_load = true := fun hi => hp (hinit.mp hi)
        simp only [if_neg hi, if_neg hnot, if_neg hnot']
        cases hq : s.phase with
        | idle => exact absurd hq hp
        | ready => rw [hq] at hphase; exact hphase
        | loading => rw [hq] at hphase; exact ⟨hphase.1, fun _ => rfl⟩
        | counting left =>
          rw [hq] at hphase
          exact ⟨hphase.1, hphase.2.1, hphase.2.2.1, hphase.2.2.2.1, fun _ => rfl⟩
        | pulse => rw [hq] at hphase; exact hphase
        | spent since => rw [hq] at hphase; exact hphase
    · have h04 : c.mode = 0 ∨ c.mode = 4 := by omega
      rw [if_neg (fun ht => h15 (h.triggered.mp ht)), heq]
      refine ⟨?_, fun ht => absurd (h.triggered.mp ht) h15⟩
      have hload : c.incomplete_reload = true ∨ c.mode = 0 ∨ c.mode = 4 := .inr h04
      simp only
      rw [if_neg h15, if_pos hload, ite_self]
  refine ⟨?_, ?_, ?_, ?_, ?_, ?_, hout, ?_, ?_, hnext⟩
  · rw [heq]; exact h.kind
  · rw [heq]; exact h.mode
  · rw [heq]; exact h.access
  · rw [heq]; exact h.whole
  · rw [heq]
    simp only [h.complete, Bool.and_false]
  · rw [heq]; exact h.gate
  · rw [heq]
    constructor
    · nofun
    · unfold OneShot.write
      simp only
      split_ifs with ht hp
      · nofun
      · exact fun hc => absurd hc hp
      · nofun
  · intro _
    refine hcount _ ?_ ?_
    · rw [heq]
    · rw [heq]

/-! ## Events -/

theorem channelEvent_kept (h : Fires t s c) (e : Event (BitVec 16)) :
    (channelEvent c.rw_mode c e).rw_mode = c.rw_mode ∧
      (channelEvent c.rw_mode c e).bcd = c.bcd := by
  cases e with
  | tick => exact ⟨(fixed_tick c).rw_mode, (fixed_tick c).bcd⟩
  | gate level =>
    obtain ⟨-, -, hrw, hbcd, -⟩ := fixed_but_gate level c
    exact ⟨hrw, hbcd⟩
  | write n =>
    rw [write_eq rfl h.access h.whole n, finalize_eq]
    exact ⟨rfl, rfl⟩

/-- A strobe whose counter has come round. -/
def Wrapped (t : OneShot) (s : Shot) : Prop := t.strobes = true ∧ s.phase = .spent t.m

theorem fires_event (h : Fires t s c) {e : Event (BitVec 16)}
    (hvalid : ∀ n, e = .write n → c.bcd = true → IsDecimal (written c.rw_mode n).toNat)
    (hstop : ¬Wrapped t (t.step s (e.map (clocks c.bcd c.rw_mode)))) :
    Fires t (t.step s (e.map (clocks c.bcd c.rw_mode))) (channelEvent c.rw_mode c e) := by
  cases e with
  | tick => exact fires_tick h (fun hs hp => hstop ⟨hs, hp⟩)
  | gate level => exact fires_setGate h level
  | write n => exact fires_write h n (hvalid n rfl)

/-- The event that brings the counter round is a tick, and OUT goes low at it. -/
theorem wrapped_event (h : Fires t s c) (hne : ¬Wrapped t s) {e : Event (BitVec 16)}
    (hwrap : Wrapped t (t.step s (e.map (clocks c.bcd c.rw_mode)))) :
    (channelEvent c.rw_mode c e).output ≠ (t.step s (e.map (clocks c.bcd c.rw_mode))).out := by
  obtain ⟨hs, hp⟩ := hwrap
  have hne' : s.phase ≠ .spent t.m := fun hq => hne ⟨hs, hq⟩
  cases e with
  | tick =>
    obtain ⟨hlow, hhigh⟩ := fires_again h hs hne' hp
    intro heq
    have hsame : (tick c).output = (t.tick s).out := heq
    rw [hlow, hhigh] at hsame
    cases hsame
  | gate level =>
    simp only [Event.map, OneShot.step, OneShot.setGate] at hp
    split_ifs at hp
    · exact absurd hp hne'
  | write n =>
    simp only [Event.map, OneShot.step, OneShot.write] at hp
    split_ifs at hp
    exact absurd hp hne'

end

/-! ## Runs -/

section

variable {t : OneShot} {s : Shot} {c : Channel} {access : Nat} {bcd : Bool}

/-- The counts of the events are counts of the channel's kind. -/
def ValidEvents (bcd : Bool) (access : Nat) (events : List (Event (BitVec 16))) : Prop :=
  ∀ n, .write n ∈ events → bcd = true → IsDecimal (written access n).toNat

def shotRun (t : OneShot) (bcd : Bool) (access : Nat) (s : Shot)
    (events : List (Event (BitVec 16))) : Shot :=
  t.run s (events.map (Event.map (clocks bcd access)))

theorem shotRun_append (events : List (Event (BitVec 16))) (e : Event (BitVec 16)) :
    shotRun t bcd access s (events ++ [e]) =
      t.step (shotRun t bcd access s events) (e.map (clocks bcd access)) := by
  unfold shotRun OneShot.run
  rw [List.map_append, List.foldl_append]
  rfl

/-- While no counter has come round, the channel is the one-shot. -/
theorem fires_run (h : Fires t s c) (ha : c.rw_mode = access) (hb : c.bcd = bcd)
    (events : List (Event (BitVec 16))) (hvalid : ValidEvents bcd access events)
    (hstop : ∀ es, es <+: events → ¬Wrapped t (shotRun t bcd access s es)) :
    Fires t (shotRun t bcd access s events) (events.foldl (channelEvent access) c) ∧
      (events.foldl (channelEvent access) c).rw_mode = access ∧
      (events.foldl (channelEvent access) c).bcd = bcd := by
  induction events using List.reverseRecOn with
  | nil => exact ⟨h, ha, hb⟩
  | append_singleton events e ih =>
    obtain ⟨hf, hrw, hbcd⟩ := ih
      (fun n hn => hvalid n (List.mem_append_left _ hn))
      (fun es hes => hstop es (hes.trans (List.prefix_append _ _)))
    rw [List.foldl_append]
    have hnext := hstop (events ++ [e]) (List.prefix_refl _)
    rw [shotRun_append] at hnext ⊢
    generalize events.foldl (channelEvent access) c = d at hf hrw hbcd ⊢
    subst hrw hbcd
    have hkept := channelEvent_kept hf e
    refine ⟨fires_event hf ?_ hnext, hkept.1, hkept.2⟩
    intro n hn
    exact hvalid n (List.mem_append_right _ (hn ▸ List.mem_singleton_self _))

/-- OUT is the one-shot's at every point of a run, just when no counter comes round. -/
theorem agrees_iff (h : Fires t s c) (ha : c.rw_mode = access) (hb : c.bcd = bcd)
    (h0 : ¬Wrapped t s) (events : List (Event (BitVec 16)))
    (hvalid : ValidEvents bcd access events) :
    (∀ es, es <+: events → (es.foldl (channelEvent access) c).output =
        (shotRun t bcd access s es).out) ↔
      ∀ es, es <+: events → ¬Wrapped t (shotRun t bcd access s es) := by
  constructor
  · induction events using List.reverseRecOn with
    | nil =>
      intro _ es hes
      rw [List.prefix_nil] at hes
      subst hes
      exact h0
    | append_singleton events e ih =>
      intro hall
      have hinit := ih (fun n hn => hvalid n (List.mem_append_left _ hn))
        (fun es hes => hall es (hes.trans (List.prefix_append _ _)))
      intro es hes
      rcases List.prefix_concat_iff.mp hes with heq | hpre
      · obtain ⟨hf, hrw, hbcd⟩ := fires_run h ha hb events
          (fun n hn => hvalid n (List.mem_append_left _ hn)) hinit
        have hlast := hall (events ++ [e]) (List.prefix_refl _)
        intro hwrap
        rw [heq] at hwrap
        rw [shotRun_append] at hwrap hlast
        rw [List.foldl_append] at hlast
        generalize events.foldl (channelEvent access) c = d at hf hrw hbcd hlast
        subst hrw hbcd
        exact wrapped_event hf (hinit events (List.prefix_refl _)) hwrap hlast
      · exact hinit es hpre
  · intro hstop es hes
    have hf := (fires_run h ha hb es
      (fun n hn => hvalid n (hes.subset hn))
      (fun es' hes' => hstop es' (hes'.trans hes))).1
    exact hf.out

end

/-! ## The law -/

theorem run_data_writes {ch : Nat} (hch : ch < 3) (bytes : List (BitVec 8)) : ∀ pit : Device,
    (run pit (bytes.map (.data_write ch))).channel ch =
      bytes.foldl (fun c value => dataWrite value c) (pit.channel ch) := by
  induction bytes with
  | nil => intro pit; rfl
  | cons value bytes ih =>
    intro pit
    rw [List.map_cons, run_cons, ih, call_channel hch, List.foldl_cons]
    have hwrite : channelCall pit.type ch (.data_write ch value) (pit.channel ch) =
        dataWrite value (pit.channel ch) := if_pos rfl
    rw [hwrite]

theorem run_callsOf {ch : Nat} (hch : ch < 3) (access : Nat) (e : Event (BitVec 16))
    (pit : Device) :
    (run pit (callsOf ch access e)).channel ch = channelEvent access (pit.channel ch) e := by
  cases e with
  | tick =>
    have hcall := call_channel hch pit (.tick_channel ch)
    exact hcall.trans (if_pos rfl)
  | gate level =>
    have hcall := call_channel hch pit (.set_gate ch level)
    exact hcall.trans (if_pos rfl)
  | write n => exact run_data_writes hch (countBytes access n) pit

theorem run_events {ch : Nat} (hch : ch < 3) (access : Nat)
    (events : List (Event (BitVec 16))) : ∀ pit : Device,
      (run pit (events.flatMap (callsOf ch access))).channel ch =
        events.foldl (channelEvent access) (pit.channel ch) := by
  induction events with
  | nil => intro pit; rfl
  | cons e events ih =>
    intro pit
    rw [List.flatMap_cons, run_append, ih, run_callsOf hch, List.foldl_cons]

/-- After the control word: no count, and OUT high but in mode 0. -/
def programmedShot (mode : Nat) (gate : Bool) : Shot := ⟨.idle, mode ≠ 0, gate, 0⟩

section

variable {value : BitVec 8}

def modeOf (value : BitVec 8) : Nat := canonical_mode (value >>> 1 &&& 7).toNat

def accessOf (value : BitVec 8) : Nat := (value >>> 4 &&& 3).toNat

def bcdOf (value : BitVec 8) : Bool := value &&& 1 ≠ 0

theorem access_cases (hp : value &&& 0x30 ≠ 0) :
    accessOf value = 1 ∨ accessOf value = 2 ∨ accessOf value = 3 := by
  have hall : ∀ v : BitVec 8, v &&& 0x30 ≠ 0 →
      (v >>> 4 &&& 3).toNat = 1 ∨ (v >>> 4 &&& 3).toNat = 2 ∨ (v >>> 4 &&& 3).toNat = 3 := by
    decide
  exact hall value hp

theorem fires_program_mode {c : Channel}
    (hm : modeOf value = 0 ∨ modeOf value = 1 ∨ modeOf value = 4 ∨ modeOf value = 5)
    (hp : value &&& 0x30 ≠ 0) :
    Fires (shotOf (modeOf value) (accessOf value) (bcdOf value))
      (programmedShot (modeOf value) c.gate) (program_mode value c) := by
  exact ⟨rfl, hm, access_cases hp, rfl, rfl, rfl, rfl, ⟨fun _ => rfl, fun _ => rfl⟩,
    fun h => absurd rfl h, rfl⟩

theorem output_iff (pit : Device) (ch : Nat) (value : BitVec 8)
    {events : List (Event (BitVec 16))} (hch : ch < 3) (hsel : (value >>> 6).toNat = ch)
    (hp : value &&& 0x30 ≠ 0)
    (hm : modeOf value = 0 ∨ modeOf value = 1 ∨ modeOf value = 4 ∨ modeOf value = 5)
    (hvalid : ValidEvents (bcdOf value) (accessOf value) events) :
    let t := shotOf (modeOf value) (accessOf value) (bcdOf value)
    let s := programmedShot (modeOf value) (pit.channel ch).gate
    (∀ es, es <+: events →
        pitx_get_output ch
          (run pit (.control_write value :: es.flatMap (callsOf ch (accessOf value)))) =
            (shotRun t (bcdOf value) (accessOf value) s es).out) ↔
      ∀ es, es <+: events → ¬Wrapped t (shotRun t (bcdOf value) (accessOf value) s es) := by
  intro t s
  have hchannel : (call pit (.control_write value)).channel ch =
      program_mode value (pit.channel ch) := by
    rw [call_channel hch]
    unfold channelCall
    simp only
    rw [if_neg (by omega), if_pos hsel, if_neg hp]
  have hfires : Fires t s ((call pit (.control_write value)).channel ch) := by
    rw [hchannel]
    exact fires_program_mode hm hp
  have hrw : ((call pit (.control_write value)).channel ch).rw_mode = accessOf value := by
    rw [hchannel]
    rfl
  have hbcd : ((call pit (.control_write value)).channel ch).bcd = bcdOf value := by
    rw [hchannel]
    rfl
  have hout : ∀ es : List (Event (BitVec 16)),
      pitx_get_output ch
        (run pit (.control_write value :: es.flatMap (callsOf ch (accessOf value)))) =
          (es.foldl (channelEvent (accessOf value))
            ((call pit (.control_write value)).channel ch)).output := by
    intro es
    unfold pitx_get_output
    rw [decide_eq_true hch, Bool.true_and, run_cons, run_events hch]
  simp only [hout]
  exact agrees_iff hfires hrw hbcd (fun hw => by cases hw.2) events hvalid

end

/-- Modes 0 and 1 are one-shots for good. Modes 4 and 5 are until, after a pulse, the
counter has come round with no load in between. -/
theorem a_shot_is_fired_once_until_the_counter_comes_round (pit : Device) (ch : Nat)
    (value : BitVec 8) (events : List (Event (BitVec 16))) (hch : ch < 3)
    (hsel : (value >>> 6).toNat = ch) (hp : value &&& 0x30 ≠ 0)
    (hm : modeOf value = 0 ∨ modeOf value = 1 ∨ modeOf value = 4 ∨ modeOf value = 5)
    (hvalid : ValidEvents (bcdOf value) (accessOf value) events) :
    let t := shotOf (modeOf value) (accessOf value) (bcdOf value)
    let s := programmedShot (modeOf value) (pit.channel ch).gate
    (∀ es, es <+: events →
        pitx_get_output ch
          (run pit (.control_write value :: es.flatMap (callsOf ch (accessOf value)))) =
            (shotRun t (bcdOf value) (accessOf value) s es).out) ↔
      (modeOf value = 0 ∨ modeOf value = 1 ∨
        ∀ es, es <+: events → (shotRun t (bcdOf value) (accessOf value) s es).phase ≠
          .spent (modulus (bcdOf value))) := by
  intro t s
  refine (output_iff pit ch value hch hsel hp hm hvalid).trans ?_
  have hstrobes : t.strobes = true ↔ modeOf value = 4 ∨ modeOf value = 5 := decide_eq_true_iff
  constructor
  · intro hall
    by_cases h45 : modeOf value = 4 ∨ modeOf value = 5
    · exact .inr (.inr fun es hes hover => hall es hes ⟨hstrobes.mpr h45, hover⟩)
    · omega
  · rintro (h0 | h1 | hall) es hes ⟨hs, hover⟩
    · have := hstrobes.mp hs
      omega
    · have := hstrobes.mp hs
      omega
    · exact hall es hes hover

theorem mode_1_fires_once :
    pitx_get_output 0 (run (pitx_reset PITX_8254) (.control_write 0x32 ::
      [Event.write 1, .gate true, .tick, .tick, .tick].flatMap (callsOf 0 3))) = true := by
  have h := (a_shot_is_fired_once_until_the_counter_comes_round (pitx_reset PITX_8254) 0 0x32
    [.write 1, .gate true, .tick, .tick, .tick] (by decide) (by decide) (by decide) (by decide)
    (fun _ _ hb => absurd hb (by decide))).mpr (.inr (.inl (by decide)))
  exact (h _ (List.prefix_refl _)).trans (by decide)

theorem over_ticks (t : OneShot) (bcd : Bool) (access : Nat) : ∀ (k since : Nat) (s : Shot),
    s.phase = .spent since → t.enabled s = true →
      (shotRun t bcd access s (List.replicate k .tick)).phase = .spent (since + k) := by
  intro k
  induction k with
  | zero => intro since s hp _; exact hp
  | succ k ih =>
    intro since s hp hen
    have hshot : t.tick s = { s with phase := .spent (since + 1) } := by
      unfold OneShot.tick
      rw [hp]
      exact if_pos hen
    have hnext := ih (since + 1) (t.tick s) (by rw [hshot]) (by rw [hshot]; exact hen)
    rw [show since + (k + 1) = since + 1 + k by omega, ← hnext]
    rfl

/-- In mode 4 with the gate high, 65536 clocks after the pulse. -/
theorem mode_4_fires_again :
    ¬∀ es, es <+: [Event.gate true, .write 1, .tick, .tick, .tick] ++ List.replicate 65536 .tick →
      pitx_get_output 0 (run (pitx_reset PITX_8254)
        (.control_write 0x38 :: es.flatMap (callsOf 0 3))) =
          (shotRun (shotOf 4 3 false) false 3 (programmedShot 4 false) es).out := by
  intro hall
  have hvalid : ValidEvents (bcdOf 0x38) (accessOf 0x38)
      ([.gate true, .write 1, .tick, .tick, .tick] ++ List.replicate 65536 .tick) :=
    fun _ _ hb => absurd hb (by decide)
  have hnone := (output_iff (pitx_reset PITX_8254) 0 0x38 (by decide) (by decide) (by decide)
    (by decide) hvalid).mp hall
  refine hnone _ (List.prefix_refl _) ⟨by decide, ?_⟩
  have hfive : shotRun (shotOf 4 3 false) false 3 (programmedShot 4 false)
      [.gate true, .write 1, .tick, .tick, .tick] = ⟨.spent 0, true, true, 1⟩ := by decide
  have happend : ∀ es : List (Event (BitVec 16)),
      shotRun (shotOf 4 3 false) false 3 (programmedShot 4 false)
        ([.gate true, .write 1, .tick, .tick, .tick] ++ es) =
          shotRun (shotOf 4 3 false) false 3 ⟨.spent 0, true, true, 1⟩ es := by
    intro es
    rw [← hfive]
    unfold shotRun OneShot.run
    rw [List.map_append, List.foldl_append]
  have hover := over_ticks (shotOf 4 3 false) false 3 65536 0
    ⟨.spent 0, true, true, 1⟩ rfl (by decide)
  exact (congrArg Shot.phase (happend _)).trans hover

end blumach.pit_exact
