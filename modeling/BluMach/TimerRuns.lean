-- The runs of the event queue. The list is the enabled timers in order after
-- every step, also in the middle of `timer_process`, and between calls
-- `timer_target` is no later than the head, while the timestamps and
-- `timer_target` stay in half of their range.
import BluMach.TimerLaws

namespace blumach.timer

open linked_list wrap_order

/-! ## What a run keeps -/

section

variable {τ P : Type}

/-- The list from `timer_head` is the enabled timers, each once and in order, and
its `prev` links agree with its `next` links. -/
def QueueOk (s : TimerState τ P) : Prop :=
  ∃ l, Walk s.next s.timer_head l ∧ Walk s.prev l.getLast? l.reverse ∧ l.Nodup ∧
    (∀ t, t ∈ l ↔ s.enabled t = true) ∧ l.Pairwise fun a b => TIMER_LESS_THAN s a b = true

/-- Between calls the CPU is not told a time later than that of the head. -/
def NotLate (s : TimerState τ P) : Prop :=
  s.stack = [] → ∀ h, s.timer_head = some h →
    TIMER_VAL_LESS_THAN_VAL s.timer_target (s.ts_integer h) = true

/-- `timer_target` lies in one half of the range with the enabled timestamps. -/
def TargetWindowed (s : TimerState τ P) : Prop :=
  ∃ base, InWindow base s.timer_target ∧
    ∀ t, s.enabled t = true → InWindow base (s.ts_integer t)

def StaysInWindow (s : TimerState τ P) : Prop :=
  Windowed s ∧ (s.stack = [] → s.timer_head ≠ none → TargetWindowed s)

/-- The CPU makes the first call: no callback stands at the bottom. -/
def CallbacksInside (stack : List (Frame τ)) : Prop :=
  ∀ t, stack.getLast? ≠ some (.callback t)

structure Inv (s : TimerState τ P) : Prop where
  queue : ∃ l, Good s l ∧ (Windowed s → Sorted s l)
  notLate : NotLate s
  inside : CallbacksInside s.stack

theorem callbacksInside_tail {f : Frame τ} {stack : List (Frame τ)}
    (h : CallbacksInside (f :: stack)) : CallbacksInside stack := by
  intro t ht
  apply h t
  rw [List.getLast?_cons, ht]
  rfl

theorem callbacksInside_cons {f : Frame τ} {stack : List (Frame τ)} (h : CallbacksInside stack)
    (hf : stack = [] → ∀ t, f ≠ .callback t) : CallbacksInside (f :: stack) := by
  intro t ht
  rw [List.getLast?_cons] at ht
  cases hl : stack.getLast? with
  | none =>
    rw [hl] at ht
    exact hf (List.getLast?_eq_none_iff.mp hl) t (Option.some.inj ht)
  | some g =>
    rw [hl] at ht
    exact h t (hl.trans ht)

theorem notLate_of_call {s : TimerState τ P} (h : s.stack ≠ []) : NotLate s :=
  fun he => absurd he h

theorem Inv.queueOk {s : TimerState τ P} (hi : Inv s) (hw : Windowed s) : QueueOk s := by
  obtain ⟨l, hg, hs⟩ := hi.queue
  refine ⟨l, hg.list.walk_next, hg.list.walk_prev, hg.list.nodup, hg.enabled, ?_⟩
  apply (hs hw).imp
  intro a b hab
  exact decide_eq_true hab

/-- The target stays behind while the head changes, and is no later than the new
head if both are in one window. -/
theorem Requeued.inv {t : τ} {s s' : TimerState τ P} {l l' : List τ} (hr : Requeued t s s' l l')
    (hi : Inv s) (hw : StaysInWindow s) (hg : Good s l) (hs : Sorted s l) : Inv s' := by
  refine ⟨⟨l', hr.good, hr.sorted⟩, ?_, hr.stack ▸ hi.inside⟩
  intro hst h hh
  rw [hr.stack] at hst
  apply decide_eq_true
  rcases hr.target h hh with ht | ⟨ht, hm, hne⟩
  · rw [ht]
    exact before_self _
  · rw [ht, hr.ts_integer h hne]
    cases l with
    | nil => exact absurd hm (by simp)
    | cons a l =>
      have hhead : s.timer_head = some a := hg.list.head_eq
      have hlate := of_decide_eq_true (hi.notLate hst a hhead)
      obtain ⟨base, hb, hbs⟩ := hw.2 hst (by rw [hhead]; simp)
      have hba := hbs a ((hg.enabled a).mp (by simp))
      have hbh := hbs h ((hg.enabled h).mp hm)
      have hah : Before (s.ts_integer a) (s.ts_integer h) := by
        rcases List.mem_cons.mp hm with rfl | hm
        · exact before_self _
        · exact (List.pairwise_cons.mp hs).1 h hm
      rw [before_iff (by decide) hb hba] at hlate
      rw [before_iff (by decide) hba hbh] at hah
      rw [before_iff (by decide) hb hbh]
      omega

theorem initial_inv (ops : PeriodOps P) (callback : τ → Bool) :
    Inv (initial ops callback) ∧ StaysInWindow (initial ops callback) := by
  refine ⟨⟨⟨[], ⟨isList_nil _ _, ?_, fun _ _ => ⟨rfl, rfl⟩⟩, fun _ => List.Pairwise.nil⟩, ?_, ?_⟩,
    ⟨0, ?_⟩, ?_⟩
  · intro t
    simp [initial]
  · intro _ h hh
    exact absurd hh (by simp [initial])
  · intro t ht
    exact absurd ht (by simp [initial])
  · intro t ht
    exact absurd ht (by simp [initial])
  · intro _ hh
    exact absurd rfl hh

theorem timer_process_inv {s : TimerState τ P} (hi : Inv s) : Inv (timer_process s) := by
  unfold timer_process
  split
  · exact hi
  · obtain ⟨l, hg, hs⟩ := hi.queue
    refine ⟨⟨l, ⟨hg.list, hg.enabled, hg.unlinked⟩, hs⟩, notLate_of_call (by simp), ?_⟩
    exact callbacksInside_cons hi.inside fun _ _ => by simp

end

section

variable {τ P : Type} [DecidableEq τ]

/-! ## The time stamp counter -/

theorem newTscLoop_spec (v : BitVec 64) {l : List τ} {fuel : Nat} {o : Option τ}
    {s : TimerState τ P} (hw : Walk s.next o l) (hd : l.Nodup) (hf : l.length ≤ fuel) :
    newTscLoop v fuel o s = some { s with
      ts_integer := fun t => if t ∈ l then v + (s.ts_integer t - s.tsc) else s.ts_integer t } := by
  induction l generalizing fuel o s with
  | nil =>
    have ho : o = none := hw
    subst ho
    cases fuel <;> simp [newTscLoop]
  | cons a l ih =>
    obtain ⟨ho, hw⟩ := hw
    obtain ⟨ha, hd⟩ := List.nodup_cons.mp hd
    subst ho
    cases fuel with
    | zero => exact absurd hf (by simp)
    | succ fuel =>
      simp only [newTscLoop]
      rw [ih (s := { s with
        ts_integer := Function.update s.ts_integer a (v + (s.ts_integer a - s.tsc)) }) hw hd
        (by simpa using hf)]
      congr 2
      funext t
      by_cases hta : t = a
      · subst hta
        simp [ha]
      · simp [hta]

/-! ## The head -/

/-- Removal of the head is a disable that keeps `in_callback`. -/
theorem remove_head_spec {s s₁ : TimerState τ P} {t : τ} {k : List τ} (hg : Good s (t :: k))
    (h : timer_remove_head s = some s₁) : Good s₁ k ∧ SameTimes s s₁ := by
  have hh : s.timer_head = some t := hg.list.head_eq
  have hp : s.prev t = none := (hg.list.prev_eq_none_iff (by simp)).mpr hh
  have hen : s.enabled t = true := (hg.enabled t).mp (by simp)
  have hg0 : Good s ([] ++ t :: k) := hg
  obtain ⟨s₂, h1, h2, h3, -⟩ := timer_disable_on hg0
  unfold timer_remove_head at h
  rw [hh] at h
  cases hn : s.next t with
  | none =>
    simp only [hn] at h
    exact absurd h (by simp)
  | some b =>
    simp only [hn] at h
    simp only [timer_disable, hen, hp, hn, Bool.not_true, Bool.false_eq_true, if_false,
      reduceCtorEq, false_and] at h1
    obtain rfl := Option.some.inj h
    obtain rfl := Option.some.inj h1
    exact ⟨⟨h2.list, h2.enabled, h2.unlinked⟩, h3.ts_integer, h3.tsc, h3.stack⟩

variable [Fintype τ]

theorem setNewTsc_spec (v : BitVec 64) {s : TimerState τ P} {l : List τ}
    (hg : Good s l) (hs : Sorted s l) (hin : CallbacksInside s.stack) :
    ∃ s', setNewTsc v s = some s' ∧ Inv s' := by
  unfold setNewTsc
  have hw := hg.list.walk_next
  split
  · rename_i hh
    refine ⟨_, rfl, ⟨l, ⟨hg.list, hg.enabled, hg.unlinked⟩, fun _ => hs⟩, ?_, hin⟩
    intro _ h he
    rw [show s.timer_head = some h from he] at hh
    exact absurd hh (by simp)
  · rename_i a hh
    rw [hh] at hw
    have hal := hg.head_mem hh
    have hloop := newTscLoop_spec v (s := { s with timer_target := v + (s.ts_integer a - s.tsc) })
      hw hg.list.nodup
      hg.list.nodup.length_le_card
    simp only [Option.bind_eq_bind]
    rw [hloop]
    refine ⟨_, rfl, ⟨l, ⟨hg.list, hg.enabled, hg.unlinked⟩, ?_⟩, ?_, hin⟩
    · intro _
      unfold Sorted at *
      rw [List.pairwise_iff_forall_sublist] at *
      intro x y hxy
      have hx := hxy.subset (show x ∈ [x, y] by simp)
      have hy := hxy.subset (show y ∈ [x, y] by simp)
      simp only [if_pos hx, if_pos hy]
      rw [before_shift]
      exact hs hxy
    · intro _ h he
      rw [show s.timer_head = some h from he] at hh
      obtain rfl := Option.some.inj hh
      apply decide_eq_true
      simp only [if_pos hal]
      exact before_self _

/-! ## The calls -/

theorem set_new_tsc_inv (v : BitVec 64) (cycdiff : Option (BitVec 64)) {s : TimerState τ P}
    {l : List τ} (hg : Good s l) (hs : Sorted s l) (hi : Inv s) :
    ∃ s', timer_set_new_tsc v cycdiff s = some s' ∧ Inv s' := by
  unfold timer_set_new_tsc
  cases cycdiff with
  | none => exact setNewTsc_spec v hg hs hi.inside
  | some d =>
    simp only
    split
    · refine ⟨_, rfl, timer_process_inv ⟨⟨l, ⟨hg.list, hg.enabled, hg.unlinked⟩, fun _ => hs⟩,
        notLate_of_call (by simp), ?_⟩⟩
      exact callbacksInside_cons hi.inside fun _ _ => by simp
    · exact setNewTsc_spec v (s := { s with tsc := s.tsc + d })
        ⟨hg.list, hg.enabled, hg.unlinked⟩ hs hi.inside

/-- No call fails, whoever makes it. -/
theorem call_inv (ops : PeriodOps P) (c : Call τ P) {s : TimerState τ P} (hi : Inv s)
    (hw : StaysInWindow s) : ∃ s', call ops c s = some s' ∧ Inv s' := by
  obtain ⟨l, hg, hs⟩ := hi.queue
  have hs := hs hw.1
  cases c with
  | enable t =>
    obtain ⟨s', l', h, hr⟩ := enable_requeued t hg (hs.sublist List.erase_sublist)
    exact ⟨s', h, hr.inv hi hw hg hs⟩
  | disable t =>
    obtain ⟨s', h, hr⟩ := disable_requeued t hg hs
    exact ⟨s', h, hr.inv hi hw hg hs⟩
  | advance t delay =>
    obtain ⟨s', l', h, hr⟩ := advance_requeued t delay hg hs
    exact ⟨s', h, hr.inv hi hw hg hs⟩
  | set_delay t delay =>
    obtain ⟨s', l', h, hr⟩ := set_delay_requeued t delay hg hs
    exact ⟨s', h, hr.inv hi hw hg hs⟩
  | stop t =>
    obtain ⟨s', l', h, hr⟩ := stop_requeued ops t hg hs
    exact ⟨s', h, hr.inv hi hw hg hs⟩
  | on_auto t period =>
    obtain ⟨s', l', h, hr⟩ := on_auto_requeued ops t period hg hs
    exact ⟨s', h, hr.inv hi hw hg hs⟩
  | set_new_tsc v cycdiff => exact set_new_tsc_inv v cycdiff hg hs hi
  | process => exact ⟨_, rfl, timer_process_inv hi⟩

/-! ## A turn of the loop -/

theorem processTurn_inv (ops : PeriodOps P) {rest : List (Frame τ)} {s s' : TimerState τ P}
    (hi : Inv s) (hw : Windowed s) (hst : s.stack = .loop :: rest)
    (h : processTurn ops rest s = some s') : Inv s' := by
  obtain ⟨l, hg, hs⟩ := hi.queue
  have hs := hs hw
  unfold processTurn at h
  split at h
  · exact absurd h (by simp)
  · rename_i t hh
    cases l with
    | nil =>
      rw [show s.timer_head = none from hg.list.head_eq] at hh
      exact absurd hh (by simp)
    | cons a k =>
      rw [show s.timer_head = some a from hg.list.head_eq] at hh
      obtain rfl := Option.some.inj hh
      split at h
      · simp only [Option.bind_eq_bind, Option.bind_eq_some_iff] at h
        obtain ⟨s₁, h1, h⟩ := h
        obtain ⟨hg1, hsame⟩ := remove_head_spec hg h1
        have hs1 : Sorted s₁ k :=
          sorted_congr (fun x _ => congrFun hsame.ts_integer x) (List.pairwise_cons.mp hs).2
        have hst1 : s₁.stack = .loop :: rest := hsame.stack.trans hst
        have hin : CallbacksInside s₁.stack := hsame.stack ▸ hi.inside
        have hbusy : s₁.stack ≠ [] := by rw [hst1]; simp
        split at h
        · obtain ⟨s₂, l', h2, hr⟩ := advance_ex_requeued ops a false hg1 hs1
          rw [h2] at h
          obtain rfl := Option.some.inj h
          exact ⟨⟨l', hr.good, hr.sorted⟩, notLate_of_call (by rwa [hr.stack]), hr.stack ▸ hin⟩
        · split at h
          · obtain rfl := Option.some.inj h
            refine ⟨⟨k, ⟨hg1.list, hg1.enabled, hg1.unlinked⟩, fun _ => hs1⟩,
              notLate_of_call (by simp), ?_⟩
            exact callbacksInside_cons hin fun he => absurd he hbusy
          · obtain rfl := Option.some.inj h
            exact ⟨⟨k, hg1, fun _ => hs1⟩, notLate_of_call hbusy, hin⟩
      · obtain rfl := Option.some.inj h
        refine ⟨⟨a :: k, ⟨hg.list, hg.enabled, hg.unlinked⟩, fun _ => hs⟩, ?_, ?_⟩
        · intro _ b hb
          obtain rfl := Option.some.inj (hg.list.head_eq.symm.trans hb)
          exact decide_eq_true (before_self _)
        · exact callbacksInside_tail (hst ▸ hi.inside)

/-! ## Runs -/

theorem step_inv (ops : PeriodOps P) (e : Event τ P) {s s' : TimerState τ P} (hi : Inv s)
    (hw : StaysInWindow s) (h : step ops e s = some s') : Inv s' := by
  obtain ⟨l, hg, hs⟩ := hi.queue
  cases e with
  | call c =>
    obtain ⟨s₁, h1, hi1⟩ := call_inv ops c hi hw
    simp only [step] at h
    split at h
    · rw [h1] at h
      obtain rfl := Option.some.inj h
      exact hi1
    · exact absurd h (by simp)
  | tick d =>
    simp only [step] at h
    split at h
    · obtain rfl := Option.some.inj h
      exact ⟨⟨l, ⟨hg.list, hg.enabled, hg.unlinked⟩, hs⟩, hi.notLate, hi.inside⟩
    · exact absurd h (by simp)
  | resume =>
    simp only [step] at h
    split at h
    · exact absurd h (by simp)
    · rename_i rest hst
      exact processTurn_inv ops hi hw.1 hst h
    · rename_i t rest hst
      obtain rfl := Option.some.inj h
      have hin := hi.inside
      rw [hst] at hin
      refine ⟨⟨l, ⟨hg.list, hg.enabled, hg.unlinked⟩, hs⟩, notLate_of_call ?_,
        callbacksInside_tail hin⟩
      rintro rfl
      exact hin t rfl
    · rename_i v rest hst
      have hin := hi.inside
      rw [hst] at hin
      obtain ⟨s₁, h1, hi1⟩ := setNewTsc_spec v (s := { s with stack := rest })
        ⟨hg.list, hg.enabled, hg.unlinked⟩ (hs hw.1) (callbacksInside_tail hin)
      rw [h1] at h
      obtain rfl := Option.some.inj h
      exact hi1

/-- The states that a run meets whose states are all `Ok`. A step that ends in a
crash, as when `timer_process` runs out of timers, leads nowhere. -/
inductive Reached (ops : PeriodOps P) (callback : τ → Bool) (Ok : TimerState τ P → Prop) :
    TimerState τ P → Prop
  | init : Reached ops callback Ok (initial ops callback)
  | step {s s' : TimerState τ P} (e : Event τ P) (h : Reached ops callback Ok s)
      (hs : step ops e s = some s') (hok : Ok s') : Reached ops callback Ok s'

theorem reached_inv {ops : PeriodOps P} {callback : τ → Bool} {s : TimerState τ P}
    (h : Reached ops callback StaysInWindow s) : Inv s ∧ StaysInWindow s := by
  induction h with
  | init => exact initial_inv ops callback
  | step e _ hs hok ih => exact ⟨step_inv ops e ih.1 ih.2 hs, hok⟩

/-- The queue is in order and never wakes late, in every state of a run that stays
in a window, and each call on it ends. -/
theorem the_queue_wakes_in_time {ops : PeriodOps P} {callback : τ → Bool} {s : TimerState τ P}
    (h : Reached ops callback StaysInWindow s) :
    QueueOk s ∧ NotLate s ∧ ∀ c, CanCall s → (call ops c s).isSome := by
  obtain ⟨hi, hw⟩ := reached_inv h
  refine ⟨hi.queueOk hw.1, hi.notLate, ?_⟩
  intro c _
  obtain ⟨s', h, -⟩ := call_inv ops c hi hw
  rw [h]
  rfl

end

/-! ## Runs on a few timers -/

section

variable {τ P : Type} [DecidableEq τ] [Fintype τ]

/-- The run of these events, as long as each state passes the check that goes with
its event. -/
def runChecked {β : Type} (ops : PeriodOps P) (check : β → TimerState τ P → Bool) :
    List (Event τ P × β) → TimerState τ P → Option (TimerState τ P)
  | [], s => some s
  | (e, base) :: es, s =>
    match step ops e s with
    | none => none
    | some s => if check base s then runChecked ops check es s else none

theorem runChecked_reached {β : Type} {ops : PeriodOps P} {callback : τ → Bool}
    {check : β → TimerState τ P → Bool} {Ok : TimerState τ P → Prop}
    (hok : ∀ base s, check base s = true → Ok s) {s s' : TimerState τ P} {es : List (Event τ P × β)}
    (h : Reached ops callback Ok s) (hr : runChecked ops check es s = some s') :
    Reached ops callback Ok s' := by
  induction es generalizing s with
  | nil => exact Option.some.inj hr ▸ h
  | cons e es ih =>
    simp only [runChecked] at hr
    split at hr
    · exact absurd hr (by simp)
    · rename_i s₁ hs
      split at hr
      · rename_i hc
        exact ih (.step e.1 h hs (hok e.2 s₁ hc)) hr
      · exact absurd hr (by simp)

end

section

variable {τ P : Type} [Fintype τ]

/-- The enabled timestamps stand in the window of `base`. -/
def checkWindow (base : BitVec 64) (s : TimerState τ P) : Bool :=
  decide (∀ t, s.enabled t = true → InWindow base (s.ts_integer t))

theorem checkWindow_spec {base : BitVec 64} {s : TimerState τ P}
    (h : checkWindow base s = true) : ∀ t, s.enabled t = true → InWindow base (s.ts_integer t) :=
  of_decide_eq_true h

end

def noPeriods : PeriodOps Unit where
  zero := ()
  isPositive := fun _ => false
  notPositive := fun _ => true
  exceedsMax := fun _ => false
  minusMax := id
  toDelay := fun _ => 0
  maxDelay := 0

theorem two_timers_wake_in_time : ∃ s : TimerState (Fin 2) Unit,
    Reached noPeriods (fun _ => true) StaysInWindow s ∧ s.timer_head = some 1 ∧ s.next 1 = some 0 ∧
    QueueOk s ∧ NotLate s ∧ ∀ c, CanCall s → (call noPeriods c s).isSome := by
  let es : List (Event (Fin 2) Unit × BitVec 64) :=
    [(.call (.set_delay 0 0x500000000), 0), (.call (.set_delay 1 0x300000000), 0)]
  let check : BitVec 64 → TimerState (Fin 2) Unit → Bool := fun base s =>
    checkWindow base s && decide (InWindow base s.timer_target)
  have hok : ∀ base s, check base s = true → StaysInWindow s := by
    intro base s h
    rw [Bool.and_eq_true, decide_eq_true_eq] at h
    have hw := checkWindow_spec h.1
    exact ⟨⟨base, hw⟩, fun _ _ => ⟨base, h.2, hw⟩⟩
  have hrun : (runChecked noPeriods check es (initial noPeriods fun _ => true)).map (fun s =>
      decide (s.timer_head = some 1 ∧ s.next 1 = some 0)) = some true := by
    decide +kernel
  rw [Option.map_eq_some_iff] at hrun
  obtain ⟨s, hs, hlist⟩ := hrun
  rw [decide_eq_true_eq] at hlist
  have hr := runChecked_reached hok .init hs
  exact ⟨s, hr, hlist.1, hlist.2, the_queue_wakes_in_time hr⟩

/-- Timers 1 and 2 stand at 2 ^ 62 and 2 ^ 63 + 2 ^ 61, and timer 0 at 0. Each pair
that is enabled together stands in a window. Timer 0 sets the target and goes,
timer 1 gives way to timer 2, and the target now counts as later than the head. -/
theorem a_target_left_behind_wakes_late : ¬∀ s : TimerState (Fin 3) Unit,
    Reached noPeriods (fun _ => true) Windowed s → QueueOk s ∧ NotLate s := by
  intro hall
  let b : BitVec 64 := 1 <<< 62
  let c : BitVec 64 := 1 <<< 63 + 1 <<< 61
  let es : List (Event (Fin 3) Unit × BitVec 64) :=
    [(.call (.set_delay 1 0), 0), (.call (.set_new_tsc b none), b), (.call (.disable 1), 0),
      (.call (.set_delay 2 0), b), (.call (.set_new_tsc c none), c), (.call (.disable 2), 0),
      (.call (.enable 0), 0), (.call (.enable 1), 0), (.call (.disable 0), b),
      (.call (.enable 2), b), (.call (.disable 1), c)]
  have hrun : (runChecked noPeriods checkWindow es (initial noPeriods fun _ => true)).map (fun s =>
      decide (s.stack = [] ∧ s.timer_head = some 2) &&
        !TIMER_VAL_LESS_THAN_VAL s.timer_target (s.ts_integer 2)) = some true := by
    decide +kernel
  rw [Option.map_eq_some_iff] at hrun
  obtain ⟨s, hr, hlate⟩ := hrun
  simp only [Bool.and_eq_true, decide_eq_true_eq, Bool.not_eq_true'] at hlate
  have h := (hall s (runChecked_reached (fun base s hc => ⟨base, checkWindow_spec hc⟩) .init hr)).2
    hlate.1.1 2 hlate.1.2
  rw [h] at hlate
  exact absurd hlate.2 (by simp)

end blumach.timer
