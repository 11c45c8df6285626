-- Where the two models of the 8253 and 8254 produce the same edges: in modes 0 and 2, and not
-- in mode 3.
import BluMach.EdgeTrain
import BluMach.PitFast

namespace blumach.pit_fast

open edge_train

/-! ## Edges -/

theorem edges_set_out (out : Bool) (ctr : Ctrf) :
    edges (pitf_ctr_set_out out ctr) =
      edges ctr + if out = true ∧ ctr.out = false then 1 else 0 := by
  unfold edges pitf_ctr_set_out
  rw [List.count_append]
  cases out <;> cases ctr.out <;> rfl

/-- The rising edges of clock `k + 1`. -/
def rising (ctr : Ctrf) (k : Nat) : Nat := edges (clock^[k + 1] ctr) - edges (clock^[k] ctr)

theorem rising_step (ctr : Ctrf) (k : Nat) :
    rising ctr k = edges (clock (clock^[k] ctr)) - edges (clock^[k] ctr) := by
  unfold rising
  rw [Function.iterate_succ_apply']

/-! ## A running counter -/

/-- A counter in a mode, with a count of `n`, that its gate and its count let run. -/
structure Live (mode n : Nat) (ctr : Ctrf) : Prop where
  m : ctr.m = mode
  enabled : ctr.enabled = true
  disabled : ctr.disabled = false
  thit : ctr.thit = false
  reload : reload ctr = n

section

variable {n : Nat} {ctr : Ctrf}

theorem clock_thit (h : ctr.thit = true) : clock ctr = ctr := if_pos (.inl h)

/-- What one clock counts down. -/
def step (ctr : Ctrf) : Int :=
  if ctr.m = 3 then if ctr.newcount = true then if ctr.out = true then 1 else 3 else 2 else 1

def counted (ctr : Ctrf) : Ctrf :=
  { ctr with
    count := ctr.count - step ctr
    newcount := if ctr.m = 3 then false else ctr.newcount }

theorem Live.clock {mode : Nat} (h : Live mode n ctr) :
    clock ctr = if ctr.count = step ctr then pitf_over (counted ctr) else counted ctr := by
  have hrun : ¬(ctr.thit = true ∨ (!ctr.enabled) = true) := by
    rw [h.thit, h.enabled]
    simp
  have hzero : ctr.count = step ctr ↔ (counted ctr).count = 0 := by
    unfold counted
    simp only
    omega
  have hcounted : counted ctr =
      if ctr.m = 3 ∧ ctr.newcount = true then
        { ctr with count := ctr.count - (if ctr.out = true then 1 else 3), newcount := false }
      else { ctr with count := ctr.count - (if ctr.m = 3 then 2 else 1) } := by
    unfold counted step
    by_cases h3 : ctr.m = 3
    · by_cases hn : ctr.newcount = true
      · have hodd : ctr.m = 3 ∧ ctr.newcount = true := ⟨h3, hn⟩
        simp only [if_pos h3, if_pos hn, if_pos hodd]
      · have hfalse : ctr.newcount = false := by simpa using hn
        simp only [if_pos h3, hfalse, Bool.false_eq_true, and_false, if_false]
    · simp only [h3, if_false, false_and]
  unfold pit_fast.clock
  rw [if_neg hrun, ← hcounted]
  simp only [hzero]

theorem live_counted {mode : Nat} (h : Live mode n ctr) : Live mode n (counted ctr) :=
  ⟨h.m, h.enabled, h.disabled, h.thit, h.reload⟩

/-! ## Mode 0 -/

theorem over_mode_0 (h : Live 0 n ctr) :
    pitf_over ctr =
      { pitf_ctr_set_out true ctr with thit := true, count := ctr.count + 0xffff } := by
  unfold pitf_over
  simp only [h.disabled, h.m, h.thit, Bool.not_false, if_true, Bool.false_eq_true, if_false]
  rfl

theorem step_mode_0 (h : Live 0 n ctr) : step ctr = 1 := by
  unfold step
  rw [h.m, if_neg (by decide)]

/-- The counter is low while it counts. -/
theorem low_mode_0 (h : Live 0 n ctr) (hout : ctr.out = false) (hcount : ctr.count = n) :
    ∀ k < n, Live 0 n (clock^[k] ctr) ∧ (clock^[k] ctr).out = false ∧
      (clock^[k] ctr).count = n - k ∧ edges (clock^[k] ctr) = edges ctr := by
  intro k
  induction k with
  | zero =>
    intro _
    refine ⟨h, hout, ?_, rfl⟩
    rw [Function.iterate_zero, id, hcount]
    simp
  | succ k ih =>
    intro hk
    obtain ⟨hlive, hlow, hleft, hedges⟩ := ih (by omega)
    have hclock := hlive.clock
    rw [step_mode_0 hlive, if_neg (by omega)] at hclock
    rw [Function.iterate_succ_apply', hclock]
    refine ⟨live_counted hlive, hlow, ?_, hedges⟩
    unfold counted
    simp only
    rw [step_mode_0 hlive, hleft]
    omega

theorem rising_mode_0 (h : Live 0 n ctr) (hn : 1 ≤ n) (hout : ctr.out = false)
    (hcount : ctr.count = n) : Once (rising ctr) := by
  obtain ⟨hlive, hlow, hleft, hedges⟩ := low_mode_0 h hout hcount (n - 1) (by omega)
  have hover : clock^[n] ctr =
      { pitf_ctr_set_out true (counted (clock^[n - 1] ctr)) with
        thit := true
        count := (counted (clock^[n - 1] ctr)).count + 0xffff } := by
    have hclock := hlive.clock
    rw [step_mode_0 hlive, if_pos (by omega), over_mode_0 (live_counted hlive)] at hclock
    have hsucc : clock^[n - 1 + 1] ctr = clock (clock^[n - 1] ctr) :=
      Function.iterate_succ_apply' ..
    rw [Nat.sub_add_cancel hn] at hsucc
    rw [hsucc, hclock]
  have hedge : edges (clock^[n] ctr) = edges ctr + 1 := by
    have hset := edges_set_out true (counted (clock^[n - 1] ctr))
    have hlow' : (counted (clock^[n - 1] ctr)).out = false := hlow
    have hedges' : edges (counted (clock^[n - 1] ctr)) = edges ctr := hedges
    rw [hlow', hedges', if_pos ⟨rfl, rfl⟩] at hset
    rw [hover, ← hset]
    rfl
  have hstop : ∀ k, clock^[k] (clock^[n] ctr) = clock^[n] ctr := by
    have hfixed : clock (clock^[n] ctr) = clock^[n] ctr := clock_thit (by rw [hover])
    exact Function.iterate_fixed hfixed
  refine ⟨n - 1, fun k => ?_⟩
  unfold rising
  rcases Nat.lt_trichotomy k (n - 1) with hk | hk | hk
  · rw [if_neg (by omega), (low_mode_0 h hout hcount (k + 1) (by omega)).2.2.2,
      (low_mode_0 h hout hcount k (by omega)).2.2.2, Nat.sub_self]
  · rw [if_pos hk, hk, hedges, Nat.sub_add_cancel hn, hedge, Nat.add_sub_cancel_left]
  · have hlater : ∀ j, n ≤ j → clock^[j] ctr = clock^[n] ctr := by
      intro j hj
      have hj' := hstop (j - n)
      rw [← Function.iterate_add_apply, Nat.sub_add_cancel hj] at hj'
      exact hj'
    rw [if_neg (by omega), hlater (k + 1) (by omega), hlater k (by omega), Nat.sub_self]

/-! ## Mode 2 -/

theorem step_mode_2 (h : Live 2 n ctr) : step ctr = 1 := by
  unfold step
  rw [h.m, if_neg (by decide)]

theorem over_mode_2 (h : Live 2 n ctr) :
    pitf_over ctr =
      pitf_ctr_set_out true (pitf_ctr_set_out false { ctr with count := ctr.count + n }) := by
  have hl := h.reload
  unfold pitf_over
  simp only [h.disabled, h.m, Bool.false_eq_true, if_false, hl]

/-- The edge comes with the reload, and the count comes round. -/
theorem clock_mode_2 (h : Live 2 n ctr) :
    Live 2 n (clock ctr) ∧
      (clock ctr).count = (if ctr.count = 1 then (n : Int) else ctr.count - 1) ∧
      edges (clock ctr) = edges ctr + if ctr.count = 1 then 1 else 0 := by
  have hclock := h.clock
  have hstep := step_mode_2 h
  have hcounted := live_counted h
  have hleft : (counted ctr).count = ctr.count - 1 := by
    unfold counted
    simp only
    rw [hstep]
  rw [hstep] at hclock
  by_cases hone : ctr.count = 1
  · rw [if_pos hone, over_mode_2 hcounted] at hclock
    rw [if_pos hone, if_pos hone, hclock]
    refine ⟨⟨h.m, h.enabled, h.disabled, h.thit, h.reload⟩, ?_, ?_⟩
    · change (counted ctr).count + (n : Int) = n
      omega
    · have hfalls := edges_set_out false { counted ctr with count := (counted ctr).count + n }
      rw [if_neg (by simp)] at hfalls
      rw [edges_set_out, hfalls]
      rfl
  · rw [if_neg hone] at hclock
    rw [if_neg hone, if_neg hone, hclock]
    exact ⟨hcounted, hleft, rfl⟩

theorem count_mode_2 (h : Live 2 n ctr) (hn : 2 ≤ n) (hcount : ctr.count = (n : Int) - 1) :
    ∀ k, Live 2 n (clock^[k] ctr) ∧ (clock^[k] ctr).count = (n : Int) - ((k + 1) % n : Nat) := by
  intro k
  induction k with
  | zero =>
    refine ⟨h, ?_⟩
    rw [Nat.zero_add, Nat.mod_eq_of_lt (by omega)]
    exact hcount
  | succ k ih =>
    obtain ⟨hlive, hleft⟩ := ih
    obtain ⟨hlive', hleft', -⟩ := clock_mode_2 hlive
    rw [Function.iterate_succ_apply']
    refine ⟨hlive', ?_⟩
    have hlt : (k + 1) % n < n := Nat.mod_lt _ (by omega)
    have hmod : (k + 1 + 1) % n = ((k + 1) % n + 1) % n := by rw [Nat.mod_add_mod]
    rw [hleft', hmod]
    by_cases hlast : (k + 1) % n = n - 1
    · rw [if_pos (by omega), hlast, Nat.sub_add_cancel (by omega), Nat.mod_self]
      simp
    · rw [if_neg (by omega), Nat.mod_eq_of_lt (by omega : (k + 1) % n + 1 < n)]
      omega

theorem rising_mode_2 (h : Live 2 n ctr) (hn : 2 ≤ n) (hcount : ctr.count = (n : Int) - 1) :
    Every (n - 2) n (rising ctr) := by
  intro k
  obtain ⟨hlive, hleft⟩ := count_mode_2 h hn hcount k
  obtain ⟨-, -, hedges⟩ := clock_mode_2 hlive
  have hone : (clock^[k] ctr).count = 1 ↔ n - 2 ≤ k ∧ (k - (n - 2)) % n = 0 := by
    have hlt : (k + 1) % n < n := Nat.mod_lt _ (by omega)
    rw [hleft]
    by_cases hk : n - 2 ≤ k
    · obtain ⟨j, rfl⟩ := Nat.exists_eq_add_of_le hk
      have hsplit : n - 2 + j + 1 = (n - 1) + j := by omega
      have hj : j % n < n := Nat.mod_lt _ (by omega)
      rw [hsplit, Nat.add_sub_cancel_left, ← Nat.add_mod_mod]
      by_cases h0 : j % n = 0
      · rw [h0, Nat.add_zero, Nat.mod_eq_of_lt (by omega)]
        omega
      · have hwrap : (n - 1 + j % n) % n = j % n - 1 := by
          rw [show n - 1 + j % n = j % n - 1 + n by omega, Nat.add_mod_right,
            Nat.mod_eq_of_lt (by omega)]
        rw [hwrap]
        omega
    · rw [Nat.mod_eq_of_lt (by omega)]
      omega
  rw [rising_step, hedges, Nat.add_sub_cancel_left]
  simp only [hone]

/-! ## Mode 3 -/

/-- Where a half period that starts with `b` has turned. The low half adds to the count too
much. -/
structure Turned (n : Nat) (b : Bool) (ctr ctr' : Ctrf) : Prop where
  live : Live 3 n ctr'
  out : ctr'.out = !b
  count : ctr'.count = if b = true then (n : Int) else (n : Int) + (n + 1) / 2
  newcount : ctr'.newcount = decide (n % 2 = 1)
  edges : edges ctr' = edges ctr + if b = true then 0 else 1

theorem turned_over (h : Live 3 n ctr) (h0 : ctr.count = 0) :
    Turned n ctr.out ctr (pitf_over ctr) := by
  have hl := h.reload
  have hodd : decide ((n : Int) % 2 = 1) = decide (n % 2 = 1) := decide_eq_decide.mpr (by omega)
  cases hout : ctr.out with
  | true =>
    have hover : pitf_over ctr =
        { pitf_ctr_set_out false ctr with
          count := ctr.count + n
          newcount := decide ((n : Int) % 2 = 1) } := by
      unfold pitf_over
      simp only [h.disabled, h.m, hout, hl, if_true, Bool.false_eq_true, if_false]
      rfl
    rw [hover]
    refine ⟨⟨h.m, h.enabled, h.disabled, h.thit, h.reload⟩, rfl, ?_, hodd, ?_⟩
    · rw [h0]
      simp
    · have hset := edges_set_out false ctr
      rw [if_neg (by simp)] at hset
      exact hset
  | false =>
    have hover : pitf_over ctr =
        { pitf_ctr_set_out true ctr with
          count := ctr.count + ((n : Int) + 1) / 2 + n
          newcount := decide ((n : Int) % 2 = 1) } := by
      unfold pitf_over
      simp only [h.disabled, h.m, hout, hl, Bool.false_eq_true, if_false]
      rfl
    rw [hover]
    refine ⟨⟨h.m, h.enabled, h.disabled, h.thit, h.reload⟩, rfl, ?_, hodd, ?_⟩
    · rw [if_neg (by decide)]
      simp only
      omega
    · have hset := edges_set_out true ctr
      rw [if_pos ⟨rfl, hout⟩] at hset
      exact hset

/-- The clock that counts down to 0. -/
theorem turned_clock (h : Live 3 n ctr) (hlast : ctr.count = step ctr) :
    Turned n ctr.out ctr (clock ctr) := by
  have hclock := h.clock
  rw [if_pos hlast] at hclock
  have hzero : (counted ctr).count = 0 := by
    unfold counted
    simp only
    omega
  obtain ⟨hlive, hout, hcount, hnew, hedges⟩ := turned_over (live_counted h) hzero
  rw [hclock]
  exact ⟨hlive, hout, hcount, hnew, hedges⟩

theorem step_of_counted (h : Live 3 n ctr) (hnew : ctr.newcount = false) : step ctr = 2 := by
  unfold step
  rw [if_pos h.m, if_neg (by rw [hnew]; decide)]

theorem newcount_counted (h : Live 3 n ctr) : (counted ctr).newcount = false := if_pos h.m

/-- After the first step of a half period the counter counts by twos. -/
theorem strides (h : Live 3 n ctr) : ∀ j : Nat, step ctr + 2 * j < ctr.count →
    Live 3 n (clock^[j + 1] ctr) ∧ (clock^[j + 1] ctr).out = ctr.out ∧
      (clock^[j + 1] ctr).count = ctr.count - step ctr - 2 * j ∧
      (clock^[j + 1] ctr).newcount = false ∧ edges (clock^[j + 1] ctr) = edges ctr := by
  intro j
  induction j with
  | zero =>
    intro hj
    have hclock := h.clock
    rw [if_neg (by omega)] at hclock
    rw [Function.iterate_one, hclock]
    refine ⟨live_counted h, rfl, ?_, newcount_counted h, rfl⟩
    unfold counted
    simp
  | succ j ih =>
    intro hj
    obtain ⟨hlive, hout, hcount, hnew, hedges⟩ := ih (by omega)
    have hclock := hlive.clock
    have hstep := step_of_counted hlive hnew
    rw [hstep, if_neg (by omega)] at hclock
    rw [Function.iterate_succ_apply', hclock]
    refine ⟨live_counted hlive, hout, ?_, newcount_counted hlive, hedges⟩
    unfold counted
    simp only
    rw [hstep, hcount]
    omega

/-- A half period of `j + 1` clocks. -/
theorem turned_after (h : Live 3 n ctr) {j : Nat} (hj : ctr.count = step ctr + 2 * j) :
    Turned n ctr.out ctr (clock^[j + 1] ctr) ∧ edges (clock^[j] ctr) = edges ctr := by
  cases j with
  | zero =>
    refine ⟨?_, rfl⟩
    rw [Function.iterate_one]
    exact turned_clock h (by omega)
  | succ j =>
    obtain ⟨hlive, hout, hcount, hnew, hedges⟩ := strides h j (by omega)
    have hstep := step_of_counted hlive hnew
    obtain ⟨hlive', hout', hcount', hnew', hedges'⟩ := turned_clock hlive (by omega)
    rw [hout] at hout' hcount' hedges'
    rw [hedges] at hedges'
    refine ⟨?_, hedges⟩
    rw [Function.iterate_succ_apply']
    exact ⟨hlive', hout', hcount', hnew', hedges'⟩

/-- The first step of a half period. -/
theorem step_of_turn (h : Live 3 n ctr) (hnew : ctr.newcount = decide (n % 2 = 1)) :
    step ctr = if n % 2 = 1 then if ctr.out = true then 1 else 3 else 2 := by
  unfold step
  rw [if_pos h.m, hnew]
  simp only [decide_eq_true_eq]

/-- The low half is `n / 2` clocks long. -/
theorem low_half (h : Live 3 n ctr) (hnew : ctr.newcount = decide (n % 2 = 1))
    (hout : ctr.out = false) (hn : 2 ≤ n) : (n : Int) = step ctr + 2 * (n / 2 - 1 : Nat) := by
  rw [step_of_turn h hnew, hout]
  by_cases hodd : n % 2 = 1
  · rw [if_pos hodd, if_neg (by decide)]
    omega
  · rw [if_neg hodd]
    omega

/-- There is no rising edge in the next `r` clocks. -/
def Waits (r : Nat) (ctr : Ctrf) : Prop :=
  ctr.out = true ∨ ∃ j : Nat, r < j + 1 ∧ ctr.count = step ctr + 2 * j

theorem waits_clock (h : Live 3 n ctr) {r : Nat} (hr : r + 1 ≤ n / 2) (hw : Waits (r + 1) ctr) :
    Live 3 n (clock ctr) ∧ Waits r (clock ctr) ∧ edges (clock ctr) = edges ctr := by
  by_cases hlast : ctr.count = step ctr
  · obtain ⟨hlive, hout, hcount, hnew, hedges⟩ := turned_clock h hlast
    have hhigh : ctr.out = true := by
      rcases hw with hhigh | ⟨j, hj, hc⟩
      · exact hhigh
      · omega
    rw [hhigh] at hout hcount hedges
    refine ⟨hlive, .inr ⟨n / 2 - 1, by omega, ?_⟩, hedges⟩
    rw [hcount, if_pos rfl]
    exact low_half hlive hnew hout (by omega)
  · have hclock := h.clock
    rw [if_neg hlast] at hclock
    have hlive := live_counted h
    rw [hclock]
    refine ⟨hlive, ?_, rfl⟩
    rcases hw with hhigh | ⟨j, hj, hc⟩
    · exact .inl hhigh
    · refine .inr ⟨j - 1, by omega, ?_⟩
      rw [step_of_counted hlive (newcount_counted h)]
      unfold counted
      simp only
      omega

theorem waits_run {r : Nat} (hr : r ≤ n / 2) : ∀ (i : Nat) (ctr : Ctrf), i ≤ r → Live 3 n ctr →
    Waits r ctr → Live 3 n (clock^[i] ctr) ∧ Waits (r - i) (clock^[i] ctr) ∧
      edges (clock^[i] ctr) = edges ctr := by
  intro i
  induction i with
  | zero => intro ctr _ h hw; exact ⟨h, hw, rfl⟩
  | succ i ih =>
    intro ctr hi h hw
    obtain ⟨hlive, hwaits, hedges⟩ := ih ctr (by omega) h hw
    obtain ⟨m, hm⟩ : ∃ m, r - i = m + 1 := ⟨r - i - 1, by omega⟩
    rw [hm] at hwaits
    obtain ⟨hlive', hwaits', hedges'⟩ := waits_clock hlive (by omega) hwaits
    rw [Function.iterate_succ_apply', show r - (i + 1) = m by omega]
    exact ⟨hlive', hwaits', hedges'.trans hedges⟩

/-- There is an edge in clock `n`, and none in clock `2 * n`. -/
theorem rising_mode_3 (h : Live 3 n ctr) (hn : 2 ≤ n) (hout : ctr.out = true)
    (hcount : ctr.count = n) (hnew : ctr.newcount = decide (n % 2 = 1)) :
    rising ctr (n - 1) = 1 ∧ rising ctr (n - 1 + n) = 0 := by
  have hstep := step_of_turn h hnew
  rw [hout] at hstep
  have hbound : ∀ c : Ctrf, step c = (if n % 2 = 1 then 1 else 2) →
      (n : Int) = step c + 2 * ((n + 1) / 2 - 1 : Nat) := by
    intro c hc
    rw [hc]
    split_ifs <;> omega
  -- the high half, and the low one
  obtain ⟨⟨hlive, hlow, hcount₁, hnew₁, hedges₁⟩, -⟩ :=
    turned_after h (hcount.trans (hbound ctr hstep))
  rw [hout] at hlow hcount₁ hedges₁
  have hsplit₁ : (n + 1) / 2 - 1 + 1 = (n + 1) / 2 := by omega
  rw [hsplit₁] at hlive hlow hcount₁ hnew₁ hedges₁
  obtain ⟨⟨hlive₂, hhigh, hcount₂, hnew₂, hedges₂⟩, hbefore⟩ :=
    turned_after hlive (hcount₁.trans (low_half hlive hnew₁ hlow hn))
  rw [hlow] at hhigh hcount₂ hedges₂
  have hsplit₂ : n / 2 - 1 + 1 = n / 2 := by omega
  have hsplit₃ : n / 2 - 1 + (n + 1) / 2 = n - 1 := by omega
  have hsplit₄ : n / 2 + (n + 1) / 2 = n := by omega
  rw [← Function.iterate_add_apply, hsplit₃] at hbefore
  rw [hsplit₂, ← Function.iterate_add_apply, hsplit₄] at hlive₂ hhigh hcount₂ hnew₂ hedges₂
  -- the next high half is too long
  have hstep₂ := step_of_turn hlive₂ hnew₂
  rw [hhigh] at hstep₂
  have hlong := hbound _ hstep₂
  obtain ⟨hlive₃, hhigh₃, -, -, hedges₃⟩ :=
    strides hlive₂ ((n + 1) / 2 - 1) (by rw [hcount₂, if_neg (by decide)]; omega)
  rw [hsplit₁, ← Function.iterate_add_apply] at hlive₃ hhigh₃ hedges₃
  have hquiet : ∀ i ≤ n / 2,
      edges (clock^[i + ((n + 1) / 2 + n)] ctr) = edges (clock^[n] ctr) := by
    intro i hi
    have hwaits := (waits_run (Nat.le_refl (n / 2)) i _ hi hlive₃ (.inl (hhigh₃.trans hhigh))).2.2
    rw [← Function.iterate_add_apply] at hwaits
    exact hwaits.trans hedges₃
  have hone : edges (clock^[n] ctr) = edges (clock^[n - 1] ctr) + 1 := by
    rw [hedges₂, hbefore, if_neg (by decide)]
  constructor
  · unfold rising
    rw [Nat.sub_add_cancel (by omega), hone, Nat.add_sub_cancel_left]
  · have hlate := hquiet (n / 2) (Nat.le_refl _)
    have hlater := hquiet (n / 2 - 1) (Nat.sub_le _ _)
    rw [show n / 2 + ((n + 1) / 2 + n) = n - 1 + n + 1 by omega] at hlate
    rw [show n / 2 - 1 + ((n + 1) / 2 + n) = n - 1 + n by omega] at hlater
    unfold rising
    rw [hlate, hlater, Nat.sub_self]

end

end blumach.pit_fast
