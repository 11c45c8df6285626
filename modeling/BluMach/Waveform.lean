-- A generator of periodic waveforms: a counter of `m` counts that is loaded with `n`, and
-- gives either a pulse at the end of every period or a square wave.
import Mathlib.Dynamics.PeriodicPts.Defs

namespace waveform

/-! ## The generator -/

/-- One count down, from zero to the top. -/
def countDown (m x : Nat) : Nat := if x = 0 then m - 1 else x - 1

structure Generator where
  /-- A square wave is asked for, not a pulse in every period. -/
  square : Bool
  /-- An odd count is loaded without its odd clock, which the high half is given back. -/
  masks : Bool
  m : Nat
  n : Nat
  two_le : 2 ≤ n
  le : n ≤ m
  even : m % 2 = 0
  four_lt : 4 < m

inductive Stage where
  /-- The next tick loads the count, after a trigger. -/
  | load
  /-- The next tick loads the count, at the end of a period or of its high half. -/
  | reload
  | counting
  deriving DecidableEq

structure Wave where
  stage : Stage
  x : Nat
  out : Bool
  /-- The next load turns the output over. -/
  toggle : Bool
  deriving DecidableEq

/-- What a load stores. -/
def Generator.loaded (g : Generator) : Nat :=
  if g.square = true ∧ g.masks = true then g.n - g.n % 2 else g.n

/-- How far a tick of the square wave counts. -/
def Generator.stride (g : Generator) (w : Wave) : Nat :=
  if g.masks = false ∧ g.n % 2 = 1 ∧ w.x % 2 = 1 then if w.out then 1 else 3 else 2

/-- The count that a tick of the square wave leaves. -/
def Generator.next (g : Generator) (w : Wave) : Nat := (countDown g.m)^[g.stride w] w.x

/-- At zero, the odd clock of the high half is still to come. -/
def Generator.defers (g : Generator) (w : Wave) : Prop :=
  g.masks = true ∧ g.n % 2 = 1 ∧ w.out = true

instance (g : Generator) (w : Wave) : Decidable (g.defers w) :=
  inferInstanceAs (Decidable (_ ∧ _))

def Generator.load (g : Generator) (w : Wave) : Wave where
  stage := .counting
  x := g.loaded
  toggle := false
  out :=
    if g.square = true then
      if w.toggle = true then !w.out else if w.stage = .load then true else w.out
    else true

def Generator.tick (g : Generator) (w : Wave) : Wave :=
  match w.stage with
  | .load => g.load w
  | .reload => g.load w
  | .counting =>
    if g.square = true then
      if g.next w = 0 then
        if g.defers w then { w with x := 0, toggle := true, stage := .reload }
        else { w with x := g.loaded, out := !w.out }
      else { w with x := g.next w }
    else if countDown g.m w.x = 1 then { w with x := 1, out := false, stage := .reload }
    else { w with x := countDown g.m w.x }

/-- The tick from here loads the count. -/
def Generator.reloads (g : Generator) (w : Wave) : Prop :=
  match w.stage with
  | .load => True
  | .reload => True
  | .counting => g.square = true ∧ g.next w = 0 ∧ ¬g.defers w

/-- The output `j` ticks after a load that started a high or a low half. -/
def Generator.output (g : Generator) (start : Bool) (j : Nat) : Bool :=
  if g.square = true then
    if start = true then decide (j % g.n < (g.n + 1) / 2) else decide (g.n / 2 ≤ j % g.n)
  else decide (j % g.n ≠ g.n - 1)

variable {g : Generator}

theorem countDown_lt {m x : Nat} (hm : 0 < m) (hx : x ≤ m) : countDown m x < m := by
  unfold countDown
  split_ifs <;> omega

theorem next_lt {w : Wave} (hx : w.x ≤ g.m) : g.next w < g.m := by
  have h4 := g.four_lt
  have hall : ∀ k, (countDown g.m)^[k + 1] w.x < g.m := by
    intro k
    induction k with
    | zero => exact countDown_lt (by omega) hx
    | succ k ih =>
      rw [Function.iterate_succ_apply']
      exact countDown_lt (by omega) ih.le
  unfold Generator.next Generator.stride
  split_ifs
  · exact hall 0
  · exact hall 2
  · exact hall 1

/-! ## Stretches of one level -/

/-- From `w` the output is `b` for `k` ticks, and then the wave is `w'`. -/
structure Stretch (g : Generator) (b : Bool) (k : Nat) (w w' : Wave) : Prop where
  last : g.tick^[k] w = w'
  level : ∀ j < k, (g.tick^[j] w).out = b

theorem stretch_one {b : Bool} {w w' : Wave} (h : g.tick w = w') (hb : w.out = b) :
    Stretch g b 1 w w' := by
  refine ⟨h, ?_⟩
  intro j hj
  obtain rfl : j = 0 := by omega
  exact hb

theorem Stretch.trans {b : Bool} {k l : Nat} {w w' w'' : Wave} (h : Stretch g b k w w')
    (h' : Stretch g b l w' w'') : Stretch g b (k + l) w w'' := by
  constructor
  · rw [Nat.add_comm, Function.iterate_add_apply, h.last, h'.last]
  · intro j hj
    by_cases hjk : j < k
    · exact h.level j hjk
    · have hsplit : j = (j - k) + k := by omega
      rw [hsplit, Function.iterate_add_apply, h.last]
      exact h'.level (j - k) (by omega)

theorem countDown_pos {m x : Nat} (h : 0 < x) : countDown m x = x - 1 := if_neg (by omega)

theorem countDown_zero (m : Nat) : countDown m 0 = m - 1 := if_pos rfl

/-! ## The pulse -/

def pulseAt (x : Nat) : Wave := ⟨.counting, x, true, false⟩

theorem tick_pulse (hs : g.square = false) {x : Nat} (hx : 2 < x) :
    g.tick (pulseAt x) = pulseAt (x - 1) := by
  have hx0 : countDown g.m x = x - 1 := countDown_pos (by omega)
  unfold Generator.tick pulseAt
  simp only [hs, Bool.false_eq_true, if_false, hx0]
  rw [if_neg (by omega)]

/-- From a count of `x` the pulse starts after `x - 1` ticks. -/
theorem stretch_pulse (hs : g.square = false) : ∀ x, 2 ≤ x →
    Stretch g true (x - 1) (pulseAt x) ⟨.reload, 1, false, false⟩ := by
  intro x hx
  induction x, hx using Nat.le_induction with
  | base =>
    refine stretch_one ?_ rfl
    have hx0 : countDown g.m 2 = 1 := countDown_pos (by omega)
    unfold Generator.tick pulseAt
    simp only [hs, Bool.false_eq_true, if_false, hx0, if_true]
  | succ x hx ih =>
    have h := (stretch_one (b := true) (tick_pulse hs (x := x + 1) (by omega)) rfl).trans ih
    rwa [show 1 + (x - 1) = x + 1 - 1 by omega] at h

theorem tick_reload_pulse (hs : g.square = false) (x : Nat) (b : Bool) :
    g.tick ⟨.reload, x, b, false⟩ = pulseAt g.n := by
  unfold Generator.tick Generator.load Generator.loaded pulseAt
  simp [hs]

/-! ## The square wave -/

def squareAt (x : Nat) (b : Bool) : Wave := ⟨.counting, x, b, false⟩

/-- The wave right after a load. -/
def started (g : Generator) (b : Bool) : Wave := squareAt g.loaded b

theorem iterate_countDown {m x k : Nat} (h : k ≤ x) : (countDown m)^[k] x = x - k := by
  induction k with
  | zero => rfl
  | succ k ih =>
    rw [Function.iterate_succ_apply', ih (by omega), countDown_pos (by omega)]
    omega

theorem tick_squareAt (hs : g.square = true) (x : Nat) (b : Bool) :
    g.tick (squareAt x b) =
      if g.next (squareAt x b) = 0 then
        if g.defers (squareAt x b) then ⟨.reload, 0, b, true⟩ else started g (!b)
      else squareAt (g.next (squareAt x b)) b :=
  if_pos hs

theorem tick_square (hs : g.square = true) {x : Nat} {b : Bool}
    (h : g.next (squareAt x b) ≠ 0) :
    g.tick (squareAt x b) = squareAt (g.next (squareAt x b)) b := by
  rw [tick_squareAt hs, if_neg h]

theorem tick_turn (hs : g.square = true) {x : Nat} {b : Bool}
    (h : g.next (squareAt x b) = 0) (hd : ¬g.defers (squareAt x b)) :
    g.tick (squareAt x b) = started g (!b) := by
  rw [tick_squareAt hs, if_pos h, if_neg hd]

theorem tick_defer (hs : g.square = true) {x : Nat} {b : Bool}
    (h : g.next (squareAt x b) = 0) (hd : g.defers (squareAt x b)) :
    g.tick (squareAt x b) = ⟨.reload, 0, b, true⟩ := by
  rw [tick_squareAt hs, if_pos h, if_pos hd]

theorem tick_deferred (hs : g.square = true) (x : Nat) (b : Bool) :
    g.tick ⟨.reload, x, b, true⟩ = started g (!b) := by
  unfold Generator.tick Generator.load started squareAt
  simp only [hs, if_true]

theorem stride_even {x : Nat} {b : Bool} (hx : x % 2 = 0) : g.stride (squareAt x b) = 2 := by
  unfold Generator.stride squareAt
  rw [if_neg]
  intro h
  have := h.2.2
  simp only at this
  omega

theorem next_even {x : Nat} {b : Bool} (hx : x % 2 = 0) (h2 : 2 ≤ x) :
    g.next (squareAt x b) = x - 2 := by
  unfold Generator.next
  rw [stride_even hx]
  exact iterate_countDown h2

/-- The ticks that are left of a half whose count is `x`, an even one. -/
def left (g : Generator) (b : Bool) (x : Nat) : Nat :=
  x / 2 + if g.masks = true ∧ g.n % 2 = 1 ∧ b = true then 1 else 0

/-- An even count runs down, and the wave turns over. -/
theorem stretch_even (hs : g.square = true) (b : Bool) : ∀ k, 1 ≤ k →
    Stretch g b (left g b (2 * k)) (squareAt (2 * k) b) (started g (!b)) := by
  intro k hk
  induction k, hk using Nat.le_induction with
  | base =>
    have hnext : g.next (squareAt 2 b) = 0 := next_even (by omega) (by omega)
    unfold left
    by_cases hd : g.defers (squareAt 2 b)
    · have hif : (if g.masks = true ∧ g.n % 2 = 1 ∧ b = true then 1 else 0) = 1 := if_pos hd
      rw [hif]
      exact (stretch_one (tick_defer hs hnext hd) rfl).trans
        (stretch_one (tick_deferred hs 0 b) rfl)
    · have hif : (if g.masks = true ∧ g.n % 2 = 1 ∧ b = true then 1 else 0) = 0 := if_neg hd
      rw [hif]
      exact stretch_one (tick_turn hs hnext hd) rfl
  | succ k hk ih =>
    have hnext : g.next (squareAt (2 * (k + 1)) b) = 2 * k := by
      rw [next_even (by omega) (by omega)]
      omega
    have htick := tick_square hs (x := 2 * (k + 1)) (b := b) (by omega)
    rw [hnext] at htick
    have h := (stretch_one (b := b) htick rfl).trans ih
    rwa [show 1 + left g b (2 * k) = left g b (2 * (k + 1)) by unfold left; omega] at h

/-- How long a half of the period lasts. -/
def half (g : Generator) (b : Bool) : Nat := if b = true then (g.n + 1) / 2 else g.n / 2

/-- Each half lasts as long as it should. -/
theorem stretch_half (hs : g.square = true) (b : Bool) :
    Stretch g b (half g b) (started g b) (started g (!b)) := by
  have h2 := g.two_le
  have hle := g.le
  have hstart : started g b = squareAt g.loaded b := rfl
  by_cases hodd : g.masks = false ∧ g.n % 2 = 1
  · -- the first tick of a half takes the odd clock away, or the odd clock and a pair
    obtain ⟨hm, hn⟩ := hodd
    have hdefer : ∀ x, ¬g.defers (squareAt x b) := by
      intro x h
      have hmasks : g.masks = true := h.1
      rw [hm] at hmasks
      exact absurd hmasks (by decide)
    have hleft : ∀ x, left g b x = x / 2 := by
      intro x
      have hif : (if g.masks = true ∧ g.n % 2 = 1 ∧ b = true then 1 else 0) = 0 :=
        if_neg (hdefer x)
      unfold left
      rw [hif, Nat.add_zero]
    have hload : g.loaded = g.n := by
      unfold Generator.loaded
      rw [if_neg (by simp [hm])]
    have hstride : g.stride (squareAt g.n b) = if b = true then 1 else 3 :=
      if_pos ⟨hm, hn, hn⟩
    have hnext : g.next (squareAt g.n b) = g.n - if b = true then 1 else 3 := by
      have h3 : (if b = true then 1 else 3) ≤ g.n := by split_ifs <;> omega
      unfold Generator.next
      rw [hstride]
      exact iterate_countDown h3
    rw [hstart, hload]
    cases b with
    | true =>
      rw [if_pos rfl] at hnext
      have htick := tick_square hs (x := g.n) (b := true) (by omega)
      rw [hnext] at htick
      have h := stretch_even hs true ((g.n - 1) / 2) (by omega)
      rw [show 2 * ((g.n - 1) / 2) = g.n - 1 by omega, hleft] at h
      have hall := (stretch_one (b := true) htick rfl).trans h
      rwa [show 1 + (g.n - 1) / 2 = half g true by unfold half; rw [if_pos rfl]; omega] at hall
    | false =>
      rw [if_neg (by decide)] at hnext
      by_cases h3 : g.n = 3
      · have hzero : g.next (squareAt g.n false) = 0 := by omega
        have htick := stretch_one (b := false) (tick_turn hs hzero (hdefer g.n)) rfl
        rwa [show 1 = half g false by unfold half; rw [if_neg (by decide)]; omega] at htick
      · have htick := tick_square hs (x := g.n) (b := false) (by omega)
        rw [hnext] at htick
        have h := stretch_even hs false ((g.n - 3) / 2) (by omega)
        rw [show 2 * ((g.n - 3) / 2) = g.n - 3 by omega, hleft] at h
        have hall := (stretch_one (b := false) htick rfl).trans h
        rwa [show 1 + (g.n - 3) / 2 = half g false by
          unfold half; rw [if_neg (by decide)]; omega] at hall
  · have hload : g.loaded = 2 * (g.n / 2) := by
      unfold Generator.loaded
      cases hm : g.masks with
      | true => rw [if_pos ⟨hs, rfl⟩]; omega
      | false =>
        rw [if_neg (by simp)]
        have : g.n % 2 ≠ 1 := fun h => hodd ⟨hm, h⟩
        omega
    have h := stretch_even hs b (g.n / 2) (by omega)
    rw [← hload] at h
    have hlen : left g b g.loaded = half g b := by
      rw [hload]
      unfold left half
      cases hm : g.masks with
      | true =>
        cases b with
        | false => simp
        | true =>
          simp
          split_ifs <;> omega
      | false =>
        have : g.n % 2 ≠ 1 := fun h => hodd ⟨hm, h⟩
        cases b with
        | false => simp
        | true =>
          simp
          omega
    rwa [hlen] at h

/-! ## Periods -/

/-- A wave right after a load is the same a period later. -/
theorem started_isPeriodicPt (hs : g.square = true) (b : Bool) :
    Function.IsPeriodicPt g.tick g.n (started g b) := by
  have h := ((stretch_half hs b).last)
  have h' := ((stretch_half hs (!b)).last)
  rw [Bool.not_not] at h'
  have hn : g.n = half g (!b) + half g b := by
    unfold half
    cases b <;> simp <;> omega
  unfold Function.IsPeriodicPt Function.IsFixedPt
  rw [hn, Function.iterate_add_apply, h, h']

theorem pulse_isPeriodicPt (hs : g.square = false) :
    Function.IsPeriodicPt g.tick g.n (pulseAt g.n) := by
  have h2 := g.two_le
  have h := (stretch_pulse hs g.n h2).last
  have hn : g.n = 1 + (g.n - 1) := by omega
  unfold Function.IsPeriodicPt Function.IsFixedPt
  conv_lhs => rw [hn]
  rw [Function.iterate_add_apply, ← hn, h]
  exact tick_reload_pulse hs 1 false

theorem started_pulse (hs : g.square = false) : started g true = pulseAt g.n := by
  unfold started squareAt pulseAt Generator.loaded
  simp [hs]

theorem output_square (hs : g.square = true) (b : Bool) (j : Nat) :
    (g.tick^[j] (started g b)).out = g.output b j := by
  have h2 := g.two_le
  have hlt : j % g.n < g.n := Nat.mod_lt _ (by omega)
  rw [← (started_isPeriodicPt hs b).iterate_mod_apply j]
  unfold Generator.output
  rw [if_pos hs]
  have hlen : half g b ≤ g.n := by
    unfold half
    split_ifs <;> omega
  by_cases hj : j % g.n < half g b
  · rw [(stretch_half hs b).level _ hj]
    unfold half at hj
    cases b <;> simp at hj ⊢ <;> omega
  · have hsplit : j % g.n = (j % g.n - half g b) + half g b := by omega
    rw [hsplit, Function.iterate_add_apply, (stretch_half hs b).last,
      (stretch_half hs (!b)).level, ← hsplit]
    · unfold half at hj
      cases b <;> simp at hj ⊢ <;> omega
    · unfold half at hj ⊢
      cases b <;> simp at hj ⊢ <;> omega

theorem output_pulse (hs : g.square = false) (j : Nat) :
    (g.tick^[j] (pulseAt g.n)).out = g.output true j := by
  have h2 := g.two_le
  have hlt : j % g.n < g.n := Nat.mod_lt _ (by omega)
  have h := stretch_pulse hs g.n h2
  rw [← (pulse_isPeriodicPt hs).iterate_mod_apply j]
  unfold Generator.output
  rw [if_neg (by rw [hs]; decide)]
  by_cases hj : j % g.n < g.n - 1
  · rw [h.level _ hj]
    exact (decide_eq_true (by omega)).symm
  · have hlast : j % g.n = g.n - 1 := by omega
    rw [hlast, h.last]
    exact (decide_eq_false (by simp)).symm

/-- The output after a load. A pulse generator starts every period high. -/
theorem output_started {b : Bool} (hb : g.square = false → b = true) (j : Nat) :
    (g.tick^[j] (started g b)).out = g.output b j := by
  cases hs : g.square with
  | true => exact output_square hs b j
  | false =>
    rw [hb hs, started_pulse hs]
    exact output_pulse hs j

/-! ## The next load -/

/-- A load `k` ticks from here starts a half or a period. -/
def LoadsAt (g : Generator) (w : Wave) (k : Nat) : Prop :=
  g.reloads (g.tick^[k] w) ∧
    ∃ b, (g.square = false → b = true) ∧ g.tick^[k + 1] w = started g b

theorem loadsAt_succ {w w' : Wave} {k : Nat} (h : g.tick w = w') (hk : LoadsAt g w' k) :
    LoadsAt g w (k + 1) := by
  unfold LoadsAt at hk ⊢
  rwa [Function.iterate_succ_apply g.tick k w, Function.iterate_succ_apply g.tick (k + 1) w, h]

/-- The level that a load starts with. -/
def Generator.loadLevel (g : Generator) (w : Wave) : Bool :=
  if g.square = true then
    if w.toggle = true then !w.out else if w.stage = .load then true else w.out
  else true

theorem load_started (w : Wave) : g.load w = started g (g.loadLevel w) := rfl

theorem loadsAt_load {w : Wave} (h : w.stage ≠ .counting) :
    g.tick w = started g (g.loadLevel w) ∧ LoadsAt g w 0 := by
  have htick : g.tick w = started g (g.loadLevel w) := by
    rw [← load_started]
    unfold Generator.tick
    cases hst : w.stage with
    | load => rfl
    | reload => rfl
    | counting => exact absurd hst h
  refine ⟨htick, ?_, g.loadLevel w, ?_, htick⟩
  · change g.reloads w
    unfold Generator.reloads
    cases hst : w.stage with
    | load => trivial
    | reload => trivial
    | counting => exact absurd hst h
  · intro hs
    unfold Generator.loadLevel
    rw [if_neg (by rw [hs]; decide)]

theorem loadsAt_pulse (hs : g.square = false) : ∀ x, 2 ≤ x → LoadsAt g (pulseAt x) (x - 1) := by
  intro x hx
  induction x, hx using Nat.le_induction with
  | base => exact loadsAt_succ (stretch_pulse hs 2 (by omega)).last (loadsAt_load (by simp)).2
  | succ x hx ih =>
    have h := loadsAt_succ (tick_pulse hs (x := x + 1) (by omega)) ih
    rwa [show x - 1 + 1 = x + 1 - 1 by omega] at h

theorem loadsAt_turn (hs : g.square = true) {x : Nat} {b : Bool}
    (h : g.next (squareAt x b) = 0) (hd : ¬g.defers (squareAt x b)) :
    LoadsAt g (squareAt x b) 0 := by
  refine ⟨⟨hs, h, hd⟩, !b, ?_, tick_turn hs h hd⟩
  intro hs'
  rw [hs] at hs'
  exact absurd hs' (by decide)

theorem loadsAt_even (hs : g.square = true) (b : Bool) : ∀ k, 1 ≤ k →
    ∃ j ≤ k, LoadsAt g (squareAt (2 * k) b) j := by
  intro k hk
  induction k, hk using Nat.le_induction with
  | base =>
    have hnext : g.next (squareAt 2 b) = 0 := next_even (by omega) (by omega)
    by_cases hd : g.defers (squareAt 2 b)
    · exact ⟨1, by omega, loadsAt_succ (tick_defer hs hnext hd) (loadsAt_load (by simp)).2⟩
    · exact ⟨0, by omega, loadsAt_turn hs hnext hd⟩
  | succ k hk ih =>
    obtain ⟨j, hj, hload⟩ := ih
    have hnext : g.next (squareAt (2 * (k + 1)) b) = 2 * k := by
      rw [next_even (by omega) (by omega)]
      omega
    have htick := tick_square hs (x := 2 * (k + 1)) (b := b) (by omega)
    rw [hnext] at htick
    exact ⟨j + 1, by omega, loadsAt_succ htick hload⟩

/-- The square wave of an even count never meets zero from an odd one. -/
def Generator.OffBeat (g : Generator) (w : Wave) : Prop :=
  g.square = true ∧ g.masks = false ∧ g.n % 2 = 0 ∧ w.stage = .counting ∧ w.x % 2 = 1

/-- What a counting wave is like in between two loads. -/
structure Running (g : Generator) (w : Wave) : Prop where
  toggle : w.stage = .counting → w.toggle = false
  le : w.stage = .counting → w.x ≤ g.m
  pulse : g.square = false → w.stage = .counting → 2 ≤ w.x ∧ w.out = true
  masked : g.square = true → g.masks = true → w.stage = .counting → w.x % 2 = 0

theorem loadsAt_of_even (hs : g.square = true) {x : Nat} (b : Bool) (hx : x % 2 = 0)
    (hle : x ≤ g.m) : ∃ j ≤ g.m, LoadsAt g (squareAt x b) j := by
  have h4 := g.four_lt
  have heven := g.even
  by_cases h0 : x = 0
  · -- from zero the count goes once round
    have hnext : g.next (squareAt x b) = g.m - 2 := by
      unfold Generator.next
      rw [stride_even hx, h0]
      have h1 : countDown g.m (g.m - 1) = g.m - 2 := countDown_pos (by omega)
      exact (congrArg (countDown g.m) (countDown_zero g.m)).trans h1
    have htick := tick_square hs (x := x) (b := b) (by omega)
    rw [hnext] at htick
    obtain ⟨j, hj, hload⟩ := loadsAt_even hs b ((g.m - 2) / 2) (by omega)
    rw [show 2 * ((g.m - 2) / 2) = g.m - 2 by omega] at hload
    exact ⟨j + 1, by omega, loadsAt_succ htick hload⟩
  · obtain ⟨j, hj, hload⟩ := loadsAt_even hs b (x / 2) (by omega)
    rw [show 2 * (x / 2) = x by omega] at hload
    exact ⟨j, by omega, hload⟩

theorem loadsAt_of_odd (hs : g.square = true) (hm : g.masks = false) (hn : g.n % 2 = 1) {x : Nat}
    (b : Bool) (hx : x % 2 = 1) (hle : x ≤ g.m) : ∃ j ≤ g.m, LoadsAt g (squareAt x b) j := by
  have h4 := g.four_lt
  have heven := g.even
  have hdefer : ¬g.defers (squareAt x b) := by
    intro h
    have hmasks : g.masks = true := h.1
    rw [hm] at hmasks
    exact absurd hmasks (by decide)
  have hstride : g.stride (squareAt x b) = if b = true then 1 else 3 := if_pos ⟨hm, hn, hx⟩
  -- one tick makes the count even
  have hnext : g.next (squareAt x b) % 2 = 0 ∧ g.next (squareAt x b) + 1 ≤ g.m ∧
      (g.next (squareAt x b) ≤ x ∨ x = 1) := by
    unfold Generator.next
    rw [hstride]
    have hx' : (squareAt x b).x = x := rfl
    rw [hx']
    cases b with
    | true =>
      rw [if_pos rfl, iterate_countDown (by omega)]
      omega
    | false =>
      rw [if_neg (by decide)]
      by_cases h1 : x = 1
      · subst h1
        have hlast : (countDown g.m)^[3] 1 = g.m - 2 := by
          have h1 : countDown g.m (g.m - 1) = g.m - 2 := countDown_pos (by omega)
          exact (congrArg (countDown g.m) (countDown_zero g.m)).trans h1
        rw [hlast]
        omega
      · rw [iterate_countDown (by omega)]
        omega
  by_cases h0 : g.next (squareAt x b) = 0
  · exact ⟨0, by omega, loadsAt_turn hs h0 hdefer⟩
  · obtain ⟨j, hj, hload⟩ := loadsAt_even hs b (g.next (squareAt x b) / 2) (by omega)
    rw [show 2 * (g.next (squareAt x b) / 2) = g.next (squareAt x b) by omega] at hload
    exact ⟨j + 1, by omega, loadsAt_succ (tick_square hs h0) hload⟩

/-- On the beat, the generator is loaded again within a round of its counter. -/
theorem exists_loadsAt {w : Wave} (hw : Running g w) (h : ¬g.OffBeat w) :
    ∃ k ≤ g.m, LoadsAt g w k := by
  by_cases hst : w.stage = .counting
  · have hwave : w = squareAt w.x w.out := by
      obtain ⟨stage, x, out, toggle⟩ := w
      have := hw.toggle hst
      simp only at hst this
      rw [hst, this]
      rfl
    cases hs : g.square with
    | false =>
      obtain ⟨h2, hout⟩ := hw.pulse hs hst
      have hle := hw.le hst
      rw [hout] at hwave
      rw [hwave]
      exact ⟨w.x - 1, by omega, loadsAt_pulse hs w.x h2⟩
    | true =>
      by_cases hx : w.x % 2 = 0
      · rw [hwave]
        exact loadsAt_of_even hs w.out hx (hw.le hst)
      · have hm : g.masks = false := by
          cases hm : g.masks with
          | false => rfl
          | true => exact absurd (hw.masked hs hm hst) hx
        have hn : g.n % 2 = 1 := by
          by_contra hn
          exact h ⟨hs, hm, by omega, hst, by omega⟩
        rw [hwave]
        exact loadsAt_of_odd hs hm hn w.out (by omega) (hw.le hst)
  · exact ⟨0, by omega, (loadsAt_load hst).2⟩

/-- Off the beat, it never is. -/
theorem not_reloads_of_offBeat {w : Wave} (hw : Running g w) (h : g.OffBeat w) (k : Nat) :
    ¬g.reloads (g.tick^[k] w) := by
  obtain ⟨hs, hm, hn, hst, hx⟩ := h
  have hle := g.le
  have heven := g.even
  have h4 := g.four_lt
  have hnext : ∀ x, x % 2 = 1 → g.next (squareAt x w.out) % 2 = 1 := by
    intro x hx
    have hstride : g.stride (squareAt x w.out) = 2 := by
      unfold Generator.stride
      rw [if_neg (by omega)]
    unfold Generator.next
    rw [hstride]
    have hx' : (squareAt x w.out).x = x := rfl
    rw [hx']
    by_cases h1 : x = 1
    · subst h1
      have hlast : (countDown g.m)^[2] 1 = g.m - 1 := countDown_zero g.m
      rw [hlast]
      omega
    · rw [iterate_countDown (by omega)]
      omega
  have hodd : ∃ x, x % 2 = 1 ∧ g.tick^[k] w = squareAt x w.out := by
    induction k with
    | zero =>
      refine ⟨w.x, hx, ?_⟩
      have htoggle := hw.toggle hst
      obtain ⟨stage, x, out, toggle⟩ := w
      simp only at hst htoggle
      rw [hst, htoggle]
      rfl
    | succ k ih =>
      obtain ⟨x, hx, hk⟩ := ih
      have hne := hnext x hx
      refine ⟨_, hne, ?_⟩
      rw [Function.iterate_succ_apply', hk]
      exact tick_square hs (by omega)
  obtain ⟨x, hx, hk⟩ := hodd
  rw [hk]
  intro h
  have hzero : g.next (squareAt x w.out) = 0 := h.2.1
  have := hnext x hx
  omega

end waveform
