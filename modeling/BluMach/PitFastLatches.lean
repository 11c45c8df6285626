-- Latches and reads of `pit_fast.c` against the level OUT. The latch command clears the mark of the
-- terminal count, so that a counter goes on; in modes 0 and 1 that is not seen from OUT.
import BluMach.PitFastTimer
import Mathlib.Tactic.FinCases

namespace blumach.pit_fast.timed

variable {τ : Type} (ops : TimerOps τ)

/-! ## Counters that differ where they have counted on -/

/-- The counter with another mark of the terminal count, another count and another `running`. -/
def vary (x : Counting τ) (thit : Bool) (count : Int) (running : Bool) : Counting τ :=
  { x with thit := thit, count := count, running := running }

/-- Mode 0 or 1, with OUT high: OUT is low again only with a new count. -/
def AtRest (x : Counting τ) : Prop := (x.m = 0 ∨ x.m = 1) ∧ x.out = true

/-- Two counters at rest that differ in no more than the latch command and the clocks make of
it. Where the counter is programmed later on, it has counted no further. -/
structure Apart (programmed : Bool) (x y : Counting τ) : Prop where
  same : y = vary x y.thit y.count y.running
  rest : AtRest x
  running : x.using_timer = true → y.running = x.running
  count : programmed = true → x.using_timer = true ∧ y.count = x.count

def Alike (programmed : Bool) (x y : Counting τ) : Prop := x = y ∨ Apart programmed x y

variable {x y : Counting τ} {p : Bool}

theorem Alike.mono {q : Bool} (h : Alike p x y) (hle : q = true → p = true) : Alike q x y := by
  rcases h with heq | hapart
  · exact Or.inl heq
  · exact Or.inr ⟨hapart.same, hapart.rest, hapart.running, fun hq => hapart.count (hle hq)⟩

theorem Alike.changes (h : Alike p x y) : x.changes = y.changes := by
  rcases h with rfl | hapart
  · rfl
  · rw [hapart.same]
    rfl

theorem advance_vary (k : Int) (x : Counting τ) (t : Bool) (n : Int) (r : Bool) :
    advance ops k (vary x t n r) = vary (advance ops k x) t n r := by
  unfold advance vary
  dsimp only
  split_ifs <;> rfl

theorem setDelay_vary (k : Int) (x : Counting τ) (t : Bool) (n : Int) (r : Bool) :
    setDelay ops k (vary x t n r) = vary (setDelay ops k x) t n r := by
  unfold setDelay vary
  dsimp only
  split_ifs <;> rfl

theorem atRest_advance (k : Int) (h : AtRest x) : AtRest (advance ops k x) := by
  unfold advance
  split_ifs
  · exact h
  · exact h

theorem set_out_same (h : x.out = true) : pitf_ctr_set_out true x = x := by
  unfold pitf_ctr_set_out
  rw [h, if_neg (by decide)]
  rw [← h]

theorem dump_on (h : x.using_timer = true ∧ ops.is_enabled x.timer = true) :
    pitf_dump_and_disable_timer ops x =
      { x with
        count := if x.m = 2 then pitf_read_timer ops x - 1 else pitf_read_timer ops x
        timer := ops.disable x.timer } := by
  unfold pitf_dump_and_disable_timer
  rw [if_pos h]

theorem dump_off (h : ¬ (x.using_timer = true ∧ ops.is_enabled x.timer = true)) :
    pitf_dump_and_disable_timer ops x = x := by
  unfold pitf_dump_and_disable_timer
  rw [if_neg h]

/-- Where the timer of a counter at rest is dumped, it gives the count. -/
theorem dump_vary (hm : x.m = 0 ∨ x.m = 1) (t : Bool) (n : Int) (r : Bool) :
    ∃ n', pitf_dump_and_disable_timer ops (vary x t n r) =
        vary (pitf_dump_and_disable_timer ops x) t n' r ∧
      (n = x.count → n' = (pitf_dump_and_disable_timer ops x).count) := by
  have hthree : x.m ≠ 3 := by rcases hm with h | h <;> rw [h] <;> decide
  by_cases hon : x.using_timer = true ∧ ops.is_enabled x.timer = true
  · have hon' : (vary x t n r).using_timer = true ∧ ops.is_enabled (vary x t n r).timer = true :=
      hon
    have hread : x.using_timer = true ∧ ¬ (x.m = 3 ∧ (!x.gate) = true) ∧
        ops.is_enabled x.timer = true := ⟨hon.1, fun h => hthree h.1, hon.2⟩
    have hsame : pitf_read_timer ops (vary x t n r) = pitf_read_timer ops x := by
      unfold pitf_read_timer vary
      dsimp only
      rw [if_pos hread, if_pos hread]
    refine ⟨(pitf_dump_and_disable_timer ops x).count, ?_, fun _ => rfl⟩
    rw [dump_on ops hon, dump_on ops hon', hsame]
    rfl
  · have hon' : ¬ ((vary x t n r).using_timer = true ∧
        ops.is_enabled (vary x t n r).timer = true) := hon
    refine ⟨n, ?_, fun h => ?_⟩
    · rw [dump_off ops hon, dump_off ops hon']
    · rw [dump_off ops hon, h]

theorem setRunning_vary (hm : x.m = 0 ∨ x.m = 1) (t : Bool) (n : Int) (r : Bool) :
    ∃ n', setRunning ops (vary x t n r) =
        vary (setRunning ops x) t n' (setRunning ops x).running ∧
      (n = x.count → n' = (setRunning ops x).count) := by
  have hrunning : ∀ y : Counting τ, (pitf_dump_and_disable_timer ops y).running = y.running := by
    intro y
    unfold pitf_dump_and_disable_timer
    split_ifs <;> rfl
  unfold setRunning
  generalize hx' : ({ x with running := x.enabled && x.using_timer && !x.disabled } : Counting τ)
    = x'
  have hvary : ({ vary x t n r with
      running := (vary x t n r).enabled && (vary x t n r).using_timer && !(vary x t n r).disabled }
        : Counting τ) = vary x' t n x'.running := by
    rw [← hx']
    rfl
  have hm' : x'.m = 0 ∨ x'.m = 1 := by rw [← hx']; exact hm
  have hcount : x'.count = x.count := by rw [← hx']
  rw [hvary]
  by_cases hstop : x'.using_timer = true ∧ (!x'.running) = true
  · have hstop' : (vary x' t n x'.running).using_timer = true ∧
        (!(vary x' t n x'.running).running) = true := hstop
    obtain ⟨n', hdump, hn'⟩ := dump_vary ops hm' t n x'.running
    refine ⟨n', ?_, fun h => ?_⟩
    · dsimp only
      rw [if_pos hstop, if_pos hstop', hdump, hrunning]
    · dsimp only
      rw [if_pos hstop]
      exact hn' (h.trans hcount.symm)
  · have hstop' : ¬ ((vary x' t n x'.running).using_timer = true ∧
        (!(vary x' t n x'.running).running) = true) := hstop
    refine ⟨n, ?_, fun h => ?_⟩
    · dsimp only
      rw [if_neg hstop, if_neg hstop']
    · dsimp only
      rw [if_neg hstop]
      exact h.trans hcount.symm

theorem atRest_setRunning (h : AtRest x) : AtRest (setRunning ops x) := by
  unfold setRunning pitf_dump_and_disable_timer
  dsimp only
  split_ifs <;> exact h

/-! ## The expiry of the timer -/

/-- The timer of a counter at rest is advanced, and OUT stays high. -/
theorem overMode_rest (h : AtRest x) :
    overMode ops x = vary (advance ops 0xffff x) true (x.count + 0xffff) x.running := by
  have hout : (if (!x.thit) = true then pitf_ctr_set_out true x else x) = x := by
    split_ifs
    · exact set_out_same h.2
    · rfl
  rw [← advance_vary]
  unfold overMode
  rcases h.1 with hm | hm
  · rw [hm]
    dsimp only
    rw [hout]
    rfl
  · rw [hm]
    dsimp only
    rw [hout]
    rfl

theorem over_rest (h : AtRest x) :
    pitf_over ops x =
      if x.disabled then vary (advance ops 0xffff x) x.thit (x.count + 0xffff) x.running
      else setRunning ops (vary (advance ops 0xffff x) true (x.count + 0xffff) x.running) := by
  unfold pitf_over
  rw [overMode_rest ops h, ← advance_vary ops _ x x.thit]
  rfl

theorem advance_fields (k : Int) (x : Counting τ) :
    (advance ops k x).using_timer = x.using_timer ∧ (advance ops k x).running = x.running ∧
      (advance ops k x).count = x.count ∧ (advance ops k x).m = x.m := by
  unfold advance
  split_ifs
  · exact ⟨rfl, rfl, rfl, rfl⟩
  · exact ⟨rfl, rfl, rfl, rfl⟩

/-- Both ways of a change of `running` from counters that are apart. -/
theorem apart_setRunning (h : AtRest x) {t t' : Bool} {n n' : Int} {r r' : Bool}
    (hcount : p = true → (setRunning ops x).using_timer = true ∧ n = x.count ∧ n' = x.count) :
    Apart p (setRunning ops (vary x t n r)) (setRunning ops (vary x t' n' r')) := by
  obtain ⟨k, hleft, hk⟩ := setRunning_vary ops h.1 t n r
  obtain ⟨k', hright, hk'⟩ := setRunning_vary ops h.1 t' n' r'
  rw [hleft, hright]
  refine ⟨rfl, atRest_setRunning ops h, fun _ => rfl, fun hp => ?_⟩
  obtain ⟨husing, hn, hn'⟩ := hcount hp
  exact ⟨husing, (hk' hn').trans (hk hn).symm⟩

theorem setRunning_using (x : Counting τ) : (setRunning ops x).using_timer = x.using_timer := by
  unfold setRunning pitf_dump_and_disable_timer
  dsimp only
  split_ifs <;> rfl

theorem apart_over (h : Apart p x y) : Apart p (pitf_over ops x) (pitf_over ops y) := by
  have hresty : AtRest y := by
    rw [h.same]
    exact h.rest
  obtain ⟨husing, hrunning, -, -⟩ := advance_fields ops 0xffff x
  have hadvance : ∀ t n r,
      vary (advance ops 0xffff y) t n r = vary (advance ops 0xffff x) t n r := by
    intro t n r
    rw [h.same, advance_vary]
    rfl
  have hdisabled : y.disabled = x.disabled := by
    rw [h.same]
    rfl
  rw [over_rest ops h.rest, over_rest ops hresty, hadvance, hadvance, hdisabled]
  by_cases hoff : x.disabled = true
  · rw [if_pos hoff, if_pos hoff]
    refine ⟨rfl, atRest_advance ops 0xffff h.rest, fun hon => ?_, fun hp => ?_⟩
    · exact h.running (husing.symm.trans hon)
    · obtain ⟨hon, hcount⟩ := h.count hp
      exact ⟨husing.trans hon, congrArg (· + 0xffff) hcount⟩
  · rw [if_neg hoff, if_neg hoff]
    have hrest : AtRest (vary (advance ops 0xffff x) true (x.count + 0xffff) x.running) :=
      atRest_advance ops 0xffff h.rest
    refine @apart_setRunning _ ops _ p hrest true true _ _ x.running y.running fun hp => ?_
    obtain ⟨hon, hcount⟩ := h.count hp
    refine ⟨?_, rfl, congrArg (· + 0xffff) hcount⟩
    rw [setRunning_using]
    exact husing.trans hon

theorem alike_over (h : Alike p x y) : Alike p (pitf_over ops x) (pitf_over ops y) := by
  rcases h with rfl | hapart
  · exact Or.inl rfl
  · exact Or.inr (apart_over ops hapart)

theorem alike_time (elapse : τ → τ × Bool) (h : Alike p x y) :
    Alike p (timePasses ops elapse x) (timePasses ops elapse y) := by
  have htimer : y.timer = x.timer := by
    rcases h with rfl | hapart
    · rfl
    · rw [hapart.same]
      rfl
  have hset : ∀ timer : τ, Alike p { x with timer := timer } { y with timer := timer } := by
    intro timer
    rcases h with rfl | hapart
    · exact Or.inl rfl
    · refine Or.inr ⟨?_, hapart.rest, hapart.running, hapart.count⟩
      exact congrArg (fun z : Counting τ => { z with timer := timer }) hapart.same
  unfold timePasses
  rw [htimer]
  generalize elapse x.timer = r
  obtain ⟨timer, expired⟩ := r
  cases expired
  · exact hset timer
  · exact alike_over ops (hset timer)

/-! ## Clocks -/

theorem clock_timer (hon : x.using_timer = true) : clock ops x = x := by
  unfold clock
  split_ifs
  · rfl
  · rfl

/-- Without a timer a counter at rest counts, and does no more. -/
theorem over_rest_off (h : AtRest x) (hoff : ¬ x.using_timer = true) :
    ∃ t n r, pitf_over ops x = vary x t n r := by
  have hadvance : advance ops 0xffff x = x := by
    unfold advance
    rw [if_neg hoff]
  rw [over_rest ops h, hadvance]
  by_cases hdisabled : x.disabled = true
  · rw [if_pos hdisabled]
    exact ⟨_, _, _, rfl⟩
  · rw [if_neg hdisabled]
    unfold setRunning
    dsimp only
    rw [if_neg fun hon => hoff hon.1]
    exact ⟨_, _, _, rfl⟩

theorem clock_rest (h : AtRest x) (hoff : ¬ x.using_timer = true) :
    ∃ t n r, clock ops x = vary x t n r := by
  have hthree : x.m ≠ 3 := by rcases h.1 with h | h <;> rw [h] <;> decide
  have hsquare : ¬ (x.m = 3 ∧ x.newcount = true) := fun h => hthree h.1
  unfold clock
  by_cases hstop : x.thit = true ∨ (!x.enabled) = true
  · rw [if_pos hstop]
    exact ⟨x.thit, x.count, x.running, rfl⟩
  · rw [if_neg hstop, if_neg hoff]
    simp only [if_neg hsquare, if_neg hthree]
    by_cases hzero : x.count - 1 = 0
    · rw [if_pos hzero]
      obtain ⟨t, n, r, hover⟩ := @over_rest_off _ ops { x with count := x.count - 1 } h hoff
      exact ⟨t, n, r, hover⟩
    · rw [if_neg hzero]
      exact ⟨x.thit, x.count - 1, x.running, rfl⟩

theorem alike_clock (h : Alike p x y) : Alike p (clock ops x) (clock ops y) := by
  rcases h with rfl | hapart
  · exact Or.inl rfl
  · have husing : y.using_timer = x.using_timer := by
      rw [hapart.same]
      rfl
    have hresty : AtRest y := by
      rw [hapart.same]
      exact hapart.rest
    by_cases hon : x.using_timer = true
    · rw [clock_timer ops hon, clock_timer ops (husing.trans hon)]
      exact Or.inr hapart
    · obtain ⟨t, n, r, hx⟩ := clock_rest ops hapart.rest hon
      obtain ⟨t', n', r', hy⟩ := clock_rest ops hresty (by rwa [husing])
      rw [hx, hy, hapart.same]
      refine Or.inr ⟨rfl, hapart.rest, fun h => absurd h hon, fun hp => ?_⟩
      exact absurd (hapart.count hp).1 hon

/-! ## Gate -/

theorem setDelay_off (k : Int) (hoff : ¬ x.using_timer = true) : setDelay ops k x = x := by
  unfold setDelay
  rw [if_neg hoff]

theorem atRest_setDelay (k : Int) (h : AtRest x) : AtRest (setDelay ops k x) := by
  unfold setDelay
  split_ifs
  · exact h
  · exact h

theorem setDelay_fields (k : Int) (x : Counting τ) :
    (setDelay ops k x).using_timer = x.using_timer ∧ (setDelay ops k x).count = x.count := by
  unfold setDelay
  split_ifs
  · exact ⟨rfl, rfl⟩
  · exact ⟨rfl, rfl⟩

/-- A new count, and a timer for it. -/
def reloaded (x : Counting τ) : Counting τ := setDelay ops (reload x) { x with count := reload x }

theorem reloaded_vary (x : Counting τ) (t : Bool) (n : Int) (r : Bool) :
    reloaded ops (vary x t n r) = vary (reloaded ops x) t (reloaded ops x).count r := by
  have hvary := setDelay_vary ops (reload x) { x with count := reload x } t (reload x) r
  have hcount : (reloaded ops x).count = reload x := (setDelay_fields ops _ _).2
  rw [hcount]
  exact hvary

/-- The timer that a gate starts in mode 0, where none runs. -/
def started (x : Counting τ) : Counting τ := if !x.running then setDelay ops (reload x) x else x

theorem started_vary (t : Bool) (n : Int) {r : Bool} (hr : x.using_timer = true → r = x.running) :
    started ops (vary x t n r) = vary (started ops x) t n r := by
  have hreload : reload (vary x t n r) = reload x := rfl
  unfold started
  rw [hreload, setDelay_vary]
  by_cases hon : x.using_timer = true
  · have hrunning : (vary x t n r).running = x.running := hr hon
    rw [hrunning]
    split_ifs <;> rfl
  · rw [setDelay_off ops _ hon]
    split_ifs <;> rfl

theorem started_fields (h : AtRest x) :
    AtRest (started ops x) ∧ (started ops x).using_timer = x.using_timer ∧
      (started ops x).count = x.count := by
  obtain ⟨husing, hcount⟩ := setDelay_fields ops (reload x) x
  unfold started
  split_ifs
  · exact ⟨atRest_setDelay ops _ h, husing, hcount⟩
  · exact ⟨h, rfl, rfl⟩

/-- The end of a change of the gate that leaves the count alone. -/
theorem apart_gate (gate enabled : Bool) {z : Counting τ} (h : AtRest z) {t : Bool} {n : Int}
    {r : Bool} (hcount : p = true → z.using_timer = true ∧ n = z.count) :
    Apart p (setRunning ops { z with enabled := enabled, gate := gate })
      (setRunning ops { vary z t n r with enabled := enabled, gate := gate }) := by
  have hrest : AtRest ({ z with enabled := enabled, gate := gate } : Counting τ) := h
  refine @apart_setRunning _ ops _ p hrest z.thit t z.count n z.running r fun hp => ?_
  obtain ⟨hon, hn⟩ := hcount hp
  refine ⟨?_, rfl, hn⟩
  rw [setRunning_using]
  exact hon

theorem gateMode_zero (gate : Bool) (hm : x.m = 0) :
    gateMode ops gate x = { started ops x with enabled := gate } := by
  cases x
  dsimp only at hm
  subst hm
  rfl

theorem gateMode_rise {gate : Bool} (hm : x.m = 1) (hrise : gate = true ∧ (!x.gate) = true) :
    gateMode ops gate x =
      { pitf_ctr_set_out false (reloaded ops x) with thit := false, enabled := true } := by
  cases x
  dsimp only at hm
  subst hm
  unfold gateMode
  exact if_pos hrise

theorem gateMode_stay {gate : Bool} (hm : x.m = 1) (hrise : ¬ (gate = true ∧ (!x.gate) = true)) :
    gateMode ops gate x = x := by
  cases x
  dsimp only at hm
  subst hm
  unfold gateMode
  exact if_neg hrise

theorem alike_gate (gate : Bool) (h : Alike p x y) :
    Alike p (setGate ops gate x) (setGate ops gate y) := by
  rcases h with rfl | hapart
  · exact Or.inl rfl
  · have hsame := hapart.same
    generalize y.thit = t at hsame
    generalize hn : y.count = n at hsame
    generalize hr : y.running = r at hsame
    have hrunning : x.using_timer = true → r = x.running := fun hon =>
      hr.symm.trans (hapart.running hon)
    have hcount : p = true → x.using_timer = true ∧ n = x.count := fun hp =>
      ⟨(hapart.count hp).1, hn.symm.trans (hapart.count hp).2⟩
    rw [hsame]
    unfold setGate
    have hdisabled : (vary x t n r).disabled = x.disabled := rfl
    rw [hdisabled]
    by_cases hoff : x.disabled = true
    · rw [if_pos hoff, if_pos hoff]
      exact Or.inr ⟨rfl, hapart.rest, hrunning, hcount⟩
    · rw [if_neg hoff, if_neg hoff]
      rcases hapart.rest.1 with hm | hm
      · obtain ⟨hrest, husing, hkept⟩ := started_fields ops hapart.rest
        rw [gateMode_zero ops gate hm, @gateMode_zero _ ops (vary x t n r) gate hm,
          started_vary ops t n hrunning]
        refine Or.inr (apart_gate ops gate gate hrest fun hp => ?_)
        rw [husing, hkept]
        exact hcount hp
      · by_cases hrise : gate = true ∧ (!x.gate) = true
        · rw [gateMode_rise ops hm hrise,
            @gateMode_rise _ ops (vary x t n r) _ hm hrise, reloaded_vary]
          exact Or.inl rfl
        · rw [gateMode_stay ops hm hrise, @gateMode_stay _ ops (vary x t n r) _ hm hrise]
          exact Or.inr (apart_gate ops gate x.enabled hapart.rest hcount)

/-! ## Programming -/

/-- Where counters at rest are to be programmed, only the mark of the terminal count differs. -/
theorem Apart.thit (h : Apart true x y) : y = vary x y.thit x.count x.running := by
  obtain ⟨hon, hcount⟩ := h.count rfl
  rw [← hcount, ← h.running hon]
  exact h.same

/-- What a load in mode 0 makes of a counter. -/
def restarted (x : Counting τ) : Counting τ :=
  let ctr := pitf_ctr_set_out false (reloaded ops x)
  { ctr with thit := false, enabled := ctr.gate }

theorem loadMode_zero (hm : x.m = 0) : loadMode ops x = restarted ops x := by
  cases x
  dsimp only at hm
  subst hm
  rfl

theorem loadMode_one (hm : x.m = 1) : loadMode ops x = { x with enabled := true } := by
  cases x
  dsimp only at hm
  subst hm
  rfl

theorem restarted_vary (x : Counting τ) (t : Bool) (n : Int) (r : Bool) :
    restarted ops (vary x t n r) = { restarted ops x with running := r } := by
  unfold restarted
  rw [reloaded_vary]
  rfl

/-- The load of counters at rest, of which only the marks of the terminal count differ. -/
theorem alike_loadMode (h : AtRest x) (hon : x.using_timer = true) (t : Bool) :
    Alike true (setRunning ops { loadMode ops x with initial := false })
      (setRunning ops
        { loadMode ops (vary x t x.count x.running) with initial := false }) := by
  rcases h.1 with hm | hm
  · rw [loadMode_zero ops hm, @loadMode_zero _ ops (vary x t x.count x.running) hm,
      restarted_vary]
    exact Or.inl rfl
  · rw [loadMode_one ops hm, @loadMode_one _ ops (vary x t x.count x.running) hm]
    have hrest : AtRest ({ x with enabled := true, initial := false } : Counting τ) := h
    refine Or.inr (@apart_setRunning _ ops _ true hrest x.thit t x.count x.count x.running
      x.running fun _ => ⟨?_, rfl, rfl⟩)
    rw [setRunning_using]
    exact hon

theorem alike_load (h : Alike true x y) :
    Alike true (pitf_ctr_load ops x) (pitf_ctr_load ops y) := by
  rcases h with rfl | hapart
  · exact Or.inl rfl
  · have hrest : AtRest ({ x with newcount := false, disabled := false } : Counting τ) :=
      hapart.rest
    rw [hapart.thit]
    exact alike_loadMode ops hrest (hapart.count rfl).1 y.thit

/-- A change of the counter that no mark or count has a part in. -/
theorem Alike.map {f : Counting τ → Counting τ} (h : Alike p x y)
    (hvary : ∀ z t n r, f (vary z t n r) = vary (f z) t n r)
    (hfields : ∀ z, (f z).m = z.m ∧ (f z).out = z.out ∧ (f z).using_timer = z.using_timer ∧
      (f z).count = z.count ∧ (f z).running = z.running) :
    Alike p (f x) (f y) := by
  rcases h with rfl | hapart
  · exact Or.inl rfl
  · obtain ⟨hm, hout, husing, hcount, hrunning⟩ := hfields x
    have hy : f y = vary (f x) y.thit y.count y.running := by
      rw [← hvary, ← hapart.same]
    refine Or.inr ⟨?_, ⟨?_, ?_⟩, fun hon => ?_, fun hp => ?_⟩
    · rw [hy]
      rfl
    · rw [hm]
      exact hapart.rest.1
    · rw [hout]
      exact hapart.rest.2
    · rw [hy, hrunning]
      exact hapart.running (husing.symm.trans hon)
    · obtain ⟨hon, hsame⟩ := hapart.count hp
      rw [hy, hcount, husing]
      exact ⟨hon, hsame⟩

/-- The four ways of a data byte. -/
theorem dataWrite_eq (val : BitVec 8) (x : Counting τ) :
    dataWrite ops val x =
      if x.wm = 1 then pitf_ctr_load ops { x with l := val.setWidth 32 }
      else if x.wm = 2 then pitf_ctr_load ops { x with l := val.setWidth 32 <<< 8 }
      else if x.wm = 0 then
        { pitf_ctr_load ops { x with l := x.l &&& 0xff#32 ||| val.setWidth 32 <<< 8 } with wm := 3 }
      else if x.wm = 3 then { x with l := x.l &&& 0xff00#32 ||| val.setWidth 32, wm := 0 }
      else x := by
  unfold dataWrite
  split
  · rw [if_pos ‹_›]
  · rw [if_neg (by omega), if_pos ‹_›]
  · rw [if_neg (by omega), if_neg (by omega), if_pos ‹_›]
  · rw [if_neg (by omega), if_neg (by omega), if_neg (by omega), if_pos ‹_›]
  · rw [if_neg ‹_›, if_neg ‹_›, if_neg ‹_›, if_neg ‹_›]

theorem alike_data (val : BitVec 8) (h : Alike true x y) :
    Alike true (dataWrite ops val x) (dataWrite ops val y) := by
  have hset : ∀ f : BitVec 32 → BitVec 32,
      Alike true ({ x with l := f x.l } : Counting τ) { y with l := f y.l } := fun f =>
    @Alike.map _ _ _ _ (fun z => { z with l := f z.l }) h (fun _ _ _ _ => rfl)
      fun _ => ⟨rfl, rfl, rfl, rfl, rfl⟩
  have hphase : ∀ (n : Nat) {z w : Counting τ}, Alike true z w →
      Alike true ({ z with wm := n } : Counting τ) { w with wm := n } := fun n z w hzw =>
    @Alike.map _ _ _ _ (fun z => { z with wm := n }) hzw (fun _ _ _ _ => rfl)
      fun _ => ⟨rfl, rfl, rfl, rfl, rfl⟩
  have hwm : y.wm = x.wm := by
    rcases h with rfl | hapart
    · rfl
    · rw [hapart.same]
      rfl
  rw [dataWrite_eq, dataWrite_eq]
  by_cases hone : x.wm = 1
  · rw [if_pos hone, if_pos (hwm.trans hone)]
    exact alike_load ops (hset fun _ => val.setWidth 32)
  · rw [if_neg hone, if_neg fun h : y.wm = 1 => hone (hwm.symm.trans h)]
    by_cases htwo : x.wm = 2
    · rw [if_pos htwo, if_pos (hwm.trans htwo)]
      exact alike_load ops (hset fun _ => val.setWidth 32 <<< 8)
    · rw [if_neg htwo, if_neg fun h : y.wm = 2 => htwo (hwm.symm.trans h)]
      by_cases hhigh : x.wm = 0
      · rw [if_pos hhigh, if_pos (hwm.trans hhigh)]
        exact hphase 3 (alike_load ops (hset fun l => l &&& 0xff#32 ||| val.setWidth 32 <<< 8))
      · rw [if_neg hhigh, if_neg fun h : y.wm = 0 => hhigh (hwm.symm.trans h)]
        by_cases hlow : x.wm = 3
        · rw [if_pos hlow, if_pos (hwm.trans hlow)]
          exact hphase 0 (hset fun l => l &&& 0xff00#32 ||| val.setWidth 32)
        · rw [if_neg hlow, if_neg fun h : y.wm = 3 => hlow (hwm.symm.trans h)]
          exact h

end blumach.pit_fast.timed
