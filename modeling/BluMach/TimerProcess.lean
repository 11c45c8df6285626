-- `timer_process` from one end to the other, callbacks included, and `timer_close`,
-- which throws the queue away when the machine is reset. A callback is a
-- parameter: it re-arms after `tsc`, or it arms nothing.
import BluMach.TimerLaws
import BluMach.TimerRuns

namespace blumach.timer

open linked_list wrap_order

variable {τ P : Type}

/-! ## The loop and its callbacks -/

/-- The timer has expired: its time is not after `tsc`. -/
def due (s : TimerState τ P) (t : τ) : Bool :=
  TIMER_VAL_LESS_THAN_VAL (s.ts_integer t) s.tsc

section

variable [DecidableEq τ] [Fintype τ]

/-- `timer_process` from the top of its loop, for a call from the CPU. `body t` is
what the callback of `t` does; `ran` has the callbacks that ran, in order. -/
def processed (ops : PeriodOps P) (body : τ → TimerState τ P → Option (TimerState τ P)) :
    Nat → List τ → TimerState τ P → Option (TimerState τ P × List τ)
  | 0, _, _ => none
  | fuel + 1, ran, s => do
    let s ← processTurn ops [] s
    match s.stack with
    | [] => some (s, ran)
    | .callback t :: _ => do
      let s ← body t s
      let s ← step ops .resume s
      processed ops body fuel (ran ++ [t]) s
    | _ => processed ops body fuel ran s

/-- What happens to a timer that is taken from the head. -/
def onExpiry (ops : PeriodOps P) (body : τ → TimerState τ P → Option (TimerState τ P)) (t : τ)
    (s : TimerState τ P) : Option (TimerState τ P) :=
  if s.split t then timer_advance_ex ops t false s
  else if s.callback t then body t { s with in_callback := Function.update s.in_callback t true }
  else some s

end

/-- What `timer_process` is to do with an expired queue: each callback of a timer that
has expired runs once, in the order of the times, and no such timer stays. -/
structure RunsAll (s s' : TimerState τ P) (ran : List τ) : Prop where
  once : ran.Nodup
  expired : ∀ t, t ∈ ran ↔ s.enabled t = true ∧ due s t = true ∧ s.callback t = true
  ordered : ran.Pairwise fun a b => TIMER_LESS_THAN s a b = true
  none_left : ∀ t, s'.enabled t = true → due s' t = false

/-! ## What a callback may do -/

/-- A queue in order, with `tsc` and the times in one half of their range. -/
structure InOrder (base : BitVec 64) (s : TimerState τ P) (l : List τ) : Prop where
  good : Good s l
  sorted : Sorted s l
  window : ∀ x ∈ l, InWindow base (s.ts_integer x)
  now : InWindow base s.tsc

/-- The fields of a timer that its expiry reads. -/
structure SameTimer (s s' : TimerState τ P) (t : τ) : Prop where
  ts_integer : s'.ts_integer t = s.ts_integer t
  ts_frac : s'.ts_frac t = s.ts_frac t
  period : s'.period t = s.period t
  split : s'.split t = s.split t

/-- The queue after something that arms timers after `tsc` only: the expired timers
stay as they are. Some timer waits afterwards if one did before or if one was armed. -/
structure Ahead (base : BitVec 64) (s s' : TimerState τ P) (l l' : List τ) (arms : Prop) :
    Prop where
  order : InOrder base s' l'
  tsc : s'.tsc = s.tsc
  stack : s'.stack = s.stack
  callback : s'.callback = s.callback
  expired : l'.filter (due s') = l.filter (due s)
  kept : ∀ x ∈ l, due s x = true → SameTimer s s' x
  waiting : (∃ x ∈ l', due s' x = false) ↔ arms ∨ ∃ x ∈ l, due s x = false

/-- The expiry of `t` re-arms after `tsc` or not at all, whatever the rest of the queue
is when it comes to `t`. -/
def RearmsAhead (base : BitVec 64) (s₀ : TimerState τ P) (t : τ)
    (act : TimerState τ P → Option (TimerState τ P)) (arms : Prop) : Prop :=
  ∀ s l, InOrder base s l → t ∉ l → s.tsc = s₀.tsc → s.callback = s₀.callback → SameTimer s₀ s t →
    ∃ s' l', act s = some s' ∧ Ahead base s s' l l' arms

theorem SameTimer.trans {s s' s'' : TimerState τ P} {t : τ} (h : SameTimer s s' t)
    (h' : SameTimer s' s'' t) : SameTimer s s'' t :=
  ⟨h'.ts_integer.trans h.ts_integer, h'.ts_frac.trans h.ts_frac, h'.period.trans h.period,
    h'.split.trans h.split⟩

theorem RearmsAhead.congr {base : BitVec 64} {s s' : TimerState τ P} {t : τ}
    {act : TimerState τ P → Option (TimerState τ P)} {arms : Prop}
    (h : RearmsAhead base s t act arms) (htsc : s'.tsc = s.tsc) (hcall : s'.callback = s.callback)
    (hsame : SameTimer s s' t) : RearmsAhead base s' t act arms := by
  intro s₁ l₁ ho hnot htsc₁ hcall₁ hsame₁
  exact h s₁ l₁ ho hnot (htsc₁.trans htsc) (hcall₁.trans hcall) (hsame.trans hsame₁)

/-- At each turn another timer stands behind the one that is taken: one that waits,
or one that an earlier expiry has armed. -/
def Survives (arms : τ → Prop) (s : TimerState τ P) (l : List τ) : Prop :=
  (∃ x ∈ l, due s x = false) ∨ ∃ x ∈ l.dropLast, due s x = true ∧ arms x

/-! ## A turn of the loop -/

/-- The callback of `t` runs when `t` is taken. -/
def runs (s : TimerState τ P) (t : τ) : Bool := s.callback t && !s.split t

theorem InOrder.of_links {base : BitVec 64} {s s' : TimerState τ P} {l : List τ}
    (h : InOrder base s l) (hg : Good s' l) (hts : s'.ts_integer = s.ts_integer)
    (htsc : s'.tsc = s.tsc) : InOrder base s' l := by
  refine ⟨hg, sorted_congr (fun x _ => congrFun hts x) h.sorted, fun x hx => ?_, ?_⟩
  · rw [hts]
    exact h.window x hx
  · rw [htsc]
    exact h.now

theorem InOrder.tail {base : BitVec 64} {s s' : TimerState τ P} {a : τ} {l : List τ}
    (h : InOrder base s (a :: l)) (hg : Good s' l) (hts : s'.ts_integer = s.ts_integer)
    (htsc : s'.tsc = s.tsc) : InOrder base s' l := by
  refine ⟨hg, sorted_congr (fun x _ => congrFun hts x) (List.pairwise_cons.mp h.sorted).2,
    fun x hx => ?_, ?_⟩
  · rw [hts]
    exact h.window x (List.mem_cons_of_mem a hx)
  · rw [htsc]
    exact h.now

/-- Behind a timer that waits every timer waits. -/
theorem InOrder.all_wait {base : BitVec 64} {s : TimerState τ P} {a : τ} {l : List τ}
    (h : InOrder base s (a :: l)) (ha : due s a = false) : ∀ x ∈ a :: l, due s x = false := by
  intro x hx
  rcases List.mem_cons.mp hx with rfl | hxl
  · exact ha
  · have hax := (List.pairwise_cons.mp h.sorted).1 x hxl
    have hwa := h.window a List.mem_cons_self
    have hwx := h.window x hx
    simp only [due, TIMER_VAL_LESS_THAN_VAL, decide_eq_false_iff_not] at ha ⊢
    rw [before_iff (by simp) hwa h.now] at ha
    rw [before_iff (by simp) hwa hwx] at hax
    rw [before_iff (by simp) hwx h.now]
    omega

theorem none_due {s : TimerState τ P} {l : List τ} (h : ∀ x ∈ l, due s x = false) :
    l.filter (due s) = [] := by
  apply List.filter_eq_nil_iff.mpr
  intro x hx
  rw [h x hx]
  exact Bool.false_ne_true

section

variable [DecidableEq τ] [Fintype τ]

variable {ops : PeriodOps P} {body : τ → TimerState τ P → Option (TimerState τ P)}

theorem processed_empty {s : TimerState τ P} (hh : s.timer_head = none) (fuel : Nat)
    (ran : List τ) : processed ops body fuel ran s = none := by
  cases fuel with
  | zero => rfl
  | succ fuel => simp [processed, processTurn, hh]

/-- The store through the new head when the last timer is taken. -/
theorem processed_last {base : BitVec 64} {s : TimerState τ P} {a : τ} (h : InOrder base s [a])
    (ha : due s a = true) (fuel : Nat) (ran : List τ) : processed ops body fuel ran s = none := by
  have hh : s.timer_head = some a := h.good.list.head_eq
  have hn : s.next a = none := h.good.list.seg.2.1
  unfold due at ha
  cases fuel with
  | zero => rfl
  | succ fuel => simp [processed, processTurn, timer_remove_head, hh, hn, ha]

theorem processed_waits {s : TimerState τ P} {a : τ} (hh : s.timer_head = some a)
    (ha : due s a = false) (fuel : Nat) (ran : List τ) :
    processed ops body (fuel + 1) ran s =
      some ({ s with timer_target := s.ts_integer a, stack := [] }, ran) := by
  unfold due at ha
  simp [processed, processTurn, hh, ha]

/-- A turn takes an expired head with another timer behind it. -/
theorem processed_turn {base : BitVec 64} {s : TimerState τ P} {a b : τ} {k : List τ} {arms : Prop}
    (h : InOrder base s (a :: b :: k)) (hst : s.stack = [.loop]) (ha : due s a = true)
    (hact : RearmsAhead base s a (onExpiry ops body a) arms) :
    ∃ s' l', (∀ fuel ran, processed ops body (fuel + 1) ran s =
        processed ops body fuel (ran ++ if runs s a then [a] else []) s') ∧
      Ahead base s s' (b :: k) l' arms := by
  have hh : s.timer_head = some a := h.good.list.head_eq
  have hn : s.next a = some b := h.good.list.seg.2.1
  have hnot : a ∉ b :: k := (List.nodup_cons.mp h.good.list.nodup).1
  let s₁ : TimerState τ P := { s with
    timer_head := some b
    prev := Function.update (Function.update s.prev b none) a none
    next := Function.update s.next a none
    enabled := Function.update s.enabled a false }
  have hpop : timer_remove_head s = some s₁ := by
    unfold timer_remove_head
    rw [hh]
    simp only [hn]
    rfl
  have hg1 : Good s₁ (b :: k) := (remove_head_spec h.good hpop).1
  have ho1 : InOrder base s₁ (b :: k) := h.tail hg1 rfl rfl
  have hturn : processTurn ops [] s =
      if s.split a then timer_advance_ex ops a false s₁
      else if s.callback a then
        some { s₁ with
          in_callback := Function.update s.in_callback a true
          stack := .callback a :: s.stack }
      else some s₁ := by
    unfold due at ha
    unfold processTurn
    rw [hh]
    simp only [ha, if_true]
    rw [hpop]
    rfl
  by_cases hsplit : s.split a = true
  · obtain ⟨s', l', he, hA⟩ := hact s₁ (b :: k) ho1 hnot rfl rfl ⟨rfl, rfl, rfl, rfl⟩
    have hadv : timer_advance_ex ops a false s₁ = some s' := by
      rw [← he, onExpiry, if_pos hsplit]
    have hst' : s'.stack = [.loop] := hA.stack.trans hst
    refine ⟨s', l', fun fuel ran => ?_, hA.order, hA.tsc, hA.stack, hA.callback, hA.expired,
      fun x hx hd => ?_,
      hA.waiting⟩
    · simp [processed, hturn, hsplit, hadv, hst', runs]
    · obtain ⟨g1, g2, g3, g4⟩ := hA.kept x hx hd
      exact ⟨g1, g2, g3, g4⟩
  · rw [Bool.not_eq_true] at hsplit
    by_cases hcall : s.callback a = true
    · let s₂ : TimerState τ P := { s₁ with stack := .callback a :: s.stack }
      have hg2 : Good s₂ (b :: k) := ⟨hg1.list, hg1.enabled, hg1.unlinked⟩
      obtain ⟨s', l', he, hA⟩ := hact s₂ (b :: k) (ho1.of_links hg2 rfl rfl) hnot rfl rfl
        ⟨rfl, rfl, rfl, rfl⟩
      have hbody : body a { s₁ with
          in_callback := Function.update s.in_callback a true
          stack := .callback a :: s.stack } = some s' := by
        rw [← he, onExpiry, if_neg (by simp [s₂, s₁, hsplit]), if_pos hcall]
      have hst' : s'.stack = [.callback a, .loop] := by
        rw [hA.stack, ← hst]
      let s₃ : TimerState τ P := { s' with
        in_callback := Function.update s'.in_callback a false
        stack := [.loop] }
      have hresume : step ops .resume s' = some s₃ := by
        simp only [step, hst']
        rfl
      have hgood := hA.order.good
      have hg3 : Good s₃ l' := ⟨hgood.list, hgood.enabled, hgood.unlinked⟩
      refine ⟨s₃, l', fun fuel ran => ?_, hA.order.of_links hg3 rfl rfl, hA.tsc, hst.symm,
        hA.callback, hA.expired, fun x hx hd => ?_, hA.waiting⟩
      · simp [processed, hturn, hsplit, hcall, hbody, hresume, runs]
      · obtain ⟨g1, g2, g3, g4⟩ := hA.kept x hx hd
        exact ⟨g1, g2, g3, g4⟩
    · rw [Bool.not_eq_true] at hcall
      obtain ⟨s', l', he, hA⟩ := hact s₁ (b :: k) ho1 hnot rfl rfl ⟨rfl, rfl, rfl, rfl⟩
      have hidle : s₁ = s' := by
        rw [onExpiry, if_neg (by simp [s₁, hsplit]), if_neg (by simp [s₁, hcall])] at he
        exact Option.some.inj he
      have hst' : s₁.stack = [.loop] := hst
      refine ⟨s', l', fun fuel ran => ?_, hA.order, hA.tsc, hA.stack, hA.callback, hA.expired,
        fun x hx hd => ?_,
        hA.waiting⟩
      · rw [← hidle]
        simp [processed, hturn, hsplit, hcall, hst', runs]
      · obtain ⟨g1, g2, g3, g4⟩ := hA.kept x hx hd
        exact ⟨g1, g2, g3, g4⟩

end

/-! ## The whole call -/

section

/-- A turn with others behind the head does not decide whether the queue survives. -/
theorem Ahead.survives {base : BitVec 64} {arms : τ → Prop} {s s' : TimerState τ P} {a b : τ}
    {k l' : List τ} (h : Ahead base s s' (b :: k) l' (arms a)) (ha : due s a = true) :
    Survives arms s (a :: b :: k) ↔ Survives arms s' l' := by
  have hlast : (a :: b :: k).dropLast = a :: (b :: k).dropLast := rfl
  by_cases hw : ∃ x ∈ l', due s' x = false
  · refine iff_of_true ?_ (Or.inl hw)
    rcases h.waiting.mp hw with harms | ⟨x, hx, hwx⟩
    · exact Or.inr ⟨a, by simp [hlast], ha, harms⟩
    · exact Or.inl ⟨x, List.mem_cons_of_mem a hx, hwx⟩
  · -- Nothing waits, so the queue is what was behind the head.
    have hnone := mt h.waiting.mpr hw
    rw [not_or] at hnone
    obtain ⟨harms, hnone⟩ := hnone
    have hall' : ∀ x ∈ l', due s' x = true := by
      intro x hx
      by_contra hd
      exact hw ⟨x, hx, by simpa using hd⟩
    have hall : ∀ x ∈ b :: k, due s x = true := by
      intro x hx
      by_contra hd
      exact hnone ⟨x, hx, by simpa using hd⟩
    have hsame : l' = b :: k := by
      rw [← List.filter_eq_self.mpr hall', h.expired, List.filter_eq_self.mpr hall]
    subst hsame
    unfold Survives
    rw [hlast]
    constructor
    · rintro (⟨x, hx, hwx⟩ | ⟨x, hx, -, hx'⟩)
      · rcases List.mem_cons.mp hx with rfl | hx
        · rw [ha] at hwx
          exact absurd hwx (by simp)
        · exact absurd ⟨x, hx, hwx⟩ hnone
      · rcases List.mem_cons.mp hx with rfl | hx
        · exact absurd hx' harms
        · exact Or.inr ⟨x, hx, hall' x (List.mem_of_mem_dropLast hx), hx'⟩
    · rintro (hw' | ⟨x, hx, -, hx'⟩)
      · exact absurd hw' hw
      · exact Or.inr ⟨x, List.mem_cons_of_mem a hx, hall x (List.mem_of_mem_dropLast hx), hx'⟩

/-- The expired timers go on as they would have before the turn. -/
theorem Ahead.rearms {base : BitVec 64} {arms : Prop} {s s' : TimerState τ P} {l l' : List τ}
    (h : Ahead base s s' l l' arms) {x : τ} (hx : x ∈ l') (hd : due s' x = true)
    {act : TimerState τ P → Option (TimerState τ P)} {armsx : Prop}
    (hact : x ∈ l → due s x = true → RearmsAhead base s x act armsx) :
    RearmsAhead base s' x act armsx := by
  have hmem : x ∈ l'.filter (due s') := List.mem_filter.mpr ⟨hx, hd⟩
  rw [h.expired, List.mem_filter] at hmem
  exact (hact hmem.1 hmem.2).congr h.tsc h.callback (h.kept x hmem.1 hmem.2)

/-- The callbacks that are still to run. -/
theorem Ahead.to_run {base : BitVec 64} {arms : Prop} {s s' : TimerState τ P} {l l' : List τ}
    (h : Ahead base s s' l l' arms) :
    (l'.filter (due s')).filter (runs s') = (l.filter (due s)).filter (runs s) := by
  rw [h.expired]
  apply List.filter_congr
  intro x hx
  rw [List.mem_filter] at hx
  rw [runs, runs, h.callback, (h.kept x hx.1 hx.2).split]

/-- The callbacks to run, when the head has expired. -/
theorem to_run_cons {s : TimerState τ P} {a : τ} (l : List τ) (ha : due s a = true) :
    ((a :: l).filter (due s)).filter (runs s) =
      (if runs s a then [a] else []) ++ (l.filter (due s)).filter (runs s) := by
  rw [List.filter_cons_of_pos ha, List.filter_cons]
  split <;> rfl

end

section

variable [DecidableEq τ] [Fintype τ]

variable {ops : PeriodOps P} {body : τ → TimerState τ P → Option (TimerState τ P)}

/-- A call that ends has run the callbacks of the expired timers, and its queue did
not empty. The induction is on the turns. -/
theorem processed_sound {base : BitVec 64} {arms : τ → Prop} {fuel : Nat} {s s' : TimerState τ P}
    {l ran ran' : List τ} (h : InOrder base s l) (hst : s.stack = [.loop])
    (hact : ∀ t ∈ l, due s t = true → RearmsAhead base s t (onExpiry ops body t) (arms t))
    (hrun : processed ops body fuel ran s = some (s', ran')) :
    Survives arms s l ∧ ran' = ran ++ (l.filter (due s)).filter (runs s) := by
  induction fuel generalizing s l ran with
  | zero => exact absurd hrun (by simp [processed])
  | succ fuel ih =>
    cases l with
    | nil =>
      rw [processed_empty h.good.list.head_eq] at hrun
      exact absurd hrun (by simp)
    | cons a l =>
      by_cases ha : due s a = true
      · cases l with
        | nil =>
          rw [processed_last h ha] at hrun
          exact absurd hrun (by simp)
        | cons b k =>
          obtain ⟨s₁, l₁, hturn, hA⟩ :=
            processed_turn h hst ha (hact a List.mem_cons_self ha)
          rw [hturn] at hrun
          obtain ⟨hsurv, hran⟩ := ih hA.order (hA.stack.trans hst)
            (fun t ht hd => hA.rearms ht hd (hact t ∘ List.mem_cons_of_mem a)) hrun
          refine ⟨(hA.survives ha).mpr hsurv, ?_⟩
          rw [hran, hA.to_run, to_run_cons (b :: k) ha, List.append_assoc]
      · rw [Bool.not_eq_true] at ha
        rw [processed_waits h.good.list.head_eq ha] at hrun
        obtain ⟨-, rfl⟩ := Prod.mk.inj (Option.some.inj hrun)
        refine ⟨Or.inl ⟨a, List.mem_cons_self, ha⟩, ?_⟩
        rw [none_due (h.all_wait ha), List.filter_nil, List.append_nil]

/-- A queue that survives is processed to its end. The induction is on the number of
expired timers, which each turn makes smaller by one. -/
theorem processed_ends {base : BitVec 64} {arms : τ → Prop} (n : Nat) {s : TimerState τ P}
    {l : List τ} (ran : List τ) (h : InOrder base s l) (hst : s.stack = [.loop])
    (hact : ∀ t ∈ l, due s t = true → RearmsAhead base s t (onExpiry ops body t) (arms t))
    (hsurv : Survives arms s l) (hn : (l.filter (due s)).length = n) :
    ∃ fuel s' ran', processed ops body fuel ran s = some (s', ran') ∧
      ∀ t, s'.enabled t = true → due s' t = false := by
  induction n generalizing s l ran with
  | zero =>
    have hall : ∀ x ∈ l, due s x = false := by
      simpa using List.filter_eq_nil_iff.mp (List.length_eq_zero_iff.mp hn)
    cases l with
    | nil => exact absurd hsurv (by simp [Survives])
    | cons a l =>
      refine ⟨1, _, _, processed_waits h.good.list.head_eq (hall a List.mem_cons_self) 0 ran, ?_⟩
      intro t ht
      exact hall t ((h.good.enabled t).mpr ht)
  | succ n ih =>
    cases l with
    | nil => exact absurd hn (by simp)
    | cons a l =>
      by_cases ha : due s a = true
      · cases l with
        | nil => exact absurd hsurv (by simp [Survives, ha])
        | cons b k =>
          obtain ⟨s₁, l₁, hturn, hA⟩ :=
            processed_turn h hst ha (hact a List.mem_cons_self ha)
          have hn₁ : (l₁.filter (due s₁)).length = n := by
            rw [List.filter_cons_of_pos ha] at hn
            rw [hA.expired]
            exact Nat.succ.inj hn
          obtain ⟨fuel, s', ran', hrun, hleft⟩ := ih (ran ++ if runs s a then [a] else [])
            hA.order (hA.stack.trans hst)
            (fun t ht hd => hA.rearms ht hd (hact t ∘ List.mem_cons_of_mem a))
            ((hA.survives ha).mp hsurv) hn₁
          exact ⟨fuel + 1, s', ran', (hturn fuel ran).trans hrun, hleft⟩
      · rw [Bool.not_eq_true] at ha
        rw [none_due (h.all_wait ha)] at hn
        exact absurd hn (by simp)

/-- The call does what it is to do unless the queue empties under it, or a period in
parts keeps the callback of an expired timer back. -/
theorem expired_timers_run_unless_the_queue_empties {base : BitVec 64} {arms : τ → Prop}
    {s : TimerState τ P} {l : List τ} (h : InOrder base s l) (hne : l ≠ []) (hst : s.stack = [])
    (hact : ∀ t ∈ l, due s t = true → RearmsAhead base s t (onExpiry ops body t) (arms t)) :
    (∃ fuel s' ran, processed ops body fuel [] (timer_process s) = some (s', ran) ∧
      RunsAll s s' ran) ↔
    (∀ t ∈ l, due s t = true → s.callback t = true → s.split t = false) ∧ Survives arms s l := by
  obtain ⟨a, k, rfl⟩ := List.exists_cons_of_ne_nil hne
  have hstart : timer_process s = { s with stack := [.loop] } := by
    unfold timer_process
    rw [h.good.list.head_eq, hst]
    rfl
  rw [hstart]
  let s₁ : TimerState τ P := { s with stack := [.loop] }
  have hg := h.good
  have h₁ : InOrder base s₁ (a :: k) := h.of_links ⟨hg.list, hg.enabled, hg.unlinked⟩ rfl rfl
  have hact₁ : ∀ t ∈ a :: k, due s₁ t = true →
      RearmsAhead base s₁ t (onExpiry ops body t) (arms t) := by
    intro t ht hd
    exact (hact t ht hd).congr rfl rfl ⟨rfl, rfl, rfl, rfl⟩
  have hmem : ∀ t, t ∈ ((a :: k).filter (due s)).filter (runs s) ↔
      (t ∈ a :: k ∧ due s t = true) ∧ s.callback t = true ∧ s.split t = false := by
    intro t
    simp only [List.mem_filter, runs, Bool.and_eq_true, Bool.not_eq_true']
  constructor
  · rintro ⟨fuel, s', ran, hrun, hall⟩
    obtain ⟨hsurv, hran⟩ := processed_sound h₁ rfl hact₁ hrun
    refine ⟨fun t ht hd hcall => ?_, hsurv⟩
    have hin : t ∈ ran := (hall.expired t).mpr ⟨(hg.enabled t).mp ht, hd, hcall⟩
    rw [hran, List.nil_append] at hin
    exact ((hmem t).mp hin).2.2
  · rintro ⟨hsplit, hsurv⟩
    obtain ⟨fuel, s', ran, hrun, hleft⟩ := processed_ends _ [] h₁ rfl hact₁ hsurv rfl
    obtain ⟨-, hran⟩ := processed_sound h₁ rfl hact₁ hrun
    rw [List.nil_append] at hran
    have hsub : ran.Sublist (a :: k) := by
      rw [hran]
      exact List.filter_sublist.trans List.filter_sublist
    refine ⟨fuel, s', ran, hrun, hg.list.nodup.sublist hsub, fun t => ?_, ?_, hleft⟩
    · rw [hran, ← hg.enabled]
      refine (hmem t).trans ⟨fun ⟨⟨ht, hd⟩, hcall, _⟩ => ⟨ht, hd, hcall⟩, ?_⟩
      rintro ⟨ht, hd, hcall⟩
      exact ⟨⟨ht, hd⟩, hcall, hsplit t ht hd hcall⟩
    · apply (h.sorted.sublist hsub).imp
      intro x y hxy
      exact decide_eq_true hxy

end

/-! ## Callbacks that re-arm their timer -/

section

/-- A callback that arms nothing. -/
theorem idle_rearms (base : BitVec 64) (s₀ : TimerState τ P) (t : τ) :
    RearmsAhead base s₀ t some False := by
  intro s l h _ _ _ _
  refine ⟨s, l, rfl, h, rfl, rfl, rfl, rfl, fun x _ _ => ⟨rfl, rfl, rfl, rfl⟩, ?_⟩
  simp

variable [DecidableEq τ] [Fintype τ]

/-- What the callback of a timer does is all that its expiry does. -/
theorem callback_rearms {ops : PeriodOps P} {body : τ → TimerState τ P → Option (TimerState τ P)}
    {base : BitVec 64} {s₀ : TimerState τ P} {t : τ} {arms : Prop} (hsplit : s₀.split t = false)
    (hcall : s₀.callback t = true) (h : RearmsAhead base s₀ t (body t) arms) :
    RearmsAhead base s₀ t (onExpiry ops body t) arms := by
  intro s l ho hnot htsc hcb hsame
  have hg := ho.good
  have hg' : Good { s with in_callback := Function.update s.in_callback t true } l :=
    ⟨hg.list, hg.enabled, hg.unlinked⟩
  obtain ⟨g1, g2, g3, g4⟩ := hsame
  obtain ⟨s', l', hbody, hA⟩ := h _ l (ho.of_links hg' rfl rfl) hnot htsc hcb ⟨g1, g2, g3, g4⟩
  refine ⟨s', l', ?_, hA.order, hA.tsc, hA.stack, hA.callback, hA.expired, fun x hx hd => ?_,
    hA.waiting⟩
  · rw [onExpiry, if_neg (by simp [g4, hsplit]), if_pos (by rw [hcb, hcall])]
    exact hbody
  · obtain ⟨k1, k2, k3, k4⟩ := hA.kept x hx hd
    exact ⟨k1, k2, k3, k4⟩

/-- A timer out of the list gets a time after `tsc` and is enabled. -/
theorem retimed_ahead {base : BitVec 64} {s : TimerState τ P} {l : List τ} {t : τ}
    (h : InOrder base s l) (ht : t ∉ l) (frac : BitVec 32) {time : BitVec 64}
    (hw : InWindow base time) (hlate : TIMER_VAL_LESS_THAN_VAL time s.tsc = false) :
    ∃ s' l', timer_enable t { s with
        ts_frac := Function.update s.ts_frac t frac
        ts_integer := Function.update s.ts_integer t time } = some s' ∧
      Ahead base s s' l l' True := by
  let s₁ : TimerState τ P := { s with
    ts_frac := Function.update s.ts_frac t frac
    ts_integer := Function.update s.ts_integer t time }
  have hg := h.good
  have hg₁ : Good s₁ l := ⟨hg.list, hg.enabled, hg.unlinked⟩
  have hoff : s₁.enabled t = false := by
    rw [← Bool.not_eq_true]
    exact fun hen => ht ((hg.enabled t).mpr hen)
  have hne : ∀ x ∈ l, x ≠ t := fun x hx hxt => ht (hxt ▸ hx)
  have hts : ∀ x ∈ l, s₁.ts_integer x = s.ts_integer x := fun x hx =>
    Function.update_of_ne (hne x hx) _ _
  have hself : s₁.ts_integer t = time := Function.update_self ..
  have hdue : ∀ x ∈ l, due s₁ x = due s x := by
    intro x hx
    rw [due, due, hts x hx]
  have hwait : due s₁ t = false := by
    rw [due, hself]
    exact hlate
  obtain ⟨m₁, m₂, rfl, henable, hbefore, hafter⟩ := enable_places t (timer_disable_off hoff) hg₁ ht
  have hwindow : ∀ x ∈ m₁ ++ t :: m₂, InWindow base (s₁.ts_integer x) := by
    intro x hx
    by_cases hxt : x = t
    · rw [hxt, hself]
      exact hw
    · have hxl : x ∈ m₁ ++ m₂ := by
        simp only [List.mem_append, List.mem_cons, hxt, false_or] at hx
        exact List.mem_append.mpr hx
      rw [hts x hxl]
      exact h.window x hxl
  have hsorted : Sorted s₁ (m₁ ++ t :: m₂) :=
    sorted_insert base hwindow (sorted_congr hts h.sorted) hbefore hafter
  refine ⟨_, m₁ ++ t :: m₂, henable, ⟨good_linked hg₁ ht, hsorted, hwindow, h.now⟩, rfl, rfl, rfl,
    ?_, fun x hx _ => ⟨hts x hx, Function.update_of_ne (hne x hx) _ _, rfl, rfl⟩,
    iff_of_true ⟨t, by simp, hwait⟩ (Or.inl trivial)⟩
  have hfilter : (m₁ ++ t :: m₂).filter (due s₁) = (m₁ ++ m₂).filter (due s₁) := by
    simp [hwait]
  exact hfilter.trans (List.filter_congr hdue)

theorem set_delay_rearms {base delay : BitVec 64} {s₀ : TimerState τ P} (t : τ)
    (hw : InWindow base (intDelay delay + s₀.tsc))
    (hlate : TIMER_VAL_LESS_THAN_VAL (intDelay delay + s₀.tsc) s₀.tsc = false) :
    RearmsAhead base s₀ t (timer_set_delay_u64 t delay) True := by
  intro s l h hnot htsc _ _
  rw [← htsc] at hw hlate
  exact retimed_ahead h hnot _ hw hlate

end

/-! ## Queues of two timers -/

/-- Two timers that have expired, timer 0 in front. -/
def twoQueued : TimerState (Fin 2) Unit :=
  { initial noPeriods fun _ => true with
    enabled := fun _ => true
    next := fun t => if t = 0 then some 1 else none
    prev := fun t => if t = 0 then none else some 0
    timer_head := some 0 }

theorem twoQueued_good : Good twoQueued [0, 1] := by
  refine ⟨⟨rfl, rfl, by decide, ?_⟩, by decide, by decide⟩
  simp [Seg, twoQueued]

theorem twoQueued_inOrder : InOrder 0 twoQueued [0, 1] := by
  refine ⟨twoQueued_good, ?_, fun x _ => ?_, by decide⟩
  · exact List.pairwise_pair.mpr (before_self _)
  · revert x
    decide

/-- Neither callback arms anything, and the second turn empties the queue. -/
theorem the_last_timer_crashes :
    ¬∀ (s : TimerState (Fin 2) Unit) (l : List (Fin 2)) (base : BitVec 64) (arms : Fin 2 → Prop)
      (body : Fin 2 → TimerState (Fin 2) Unit → Option (TimerState (Fin 2) Unit)),
      InOrder base s l → l ≠ [] → s.stack = [] → (∀ t, s.split t = false) →
      (∀ t ∈ l, due s t = true → RearmsAhead base s t (onExpiry noPeriods body t) (arms t)) →
      ∃ fuel s' ran, processed noPeriods body fuel [] (timer_process s) = some (s', ran) ∧
        RunsAll s s' ran := by
  intro hall
  have hact : ∀ t ∈ [0, 1], due twoQueued t = true →
      RearmsAhead 0 twoQueued t (onExpiry noPeriods (fun _ s => some s) t) False :=
    fun t _ _ => callback_rearms rfl rfl (idle_rearms 0 twoQueued t)
  obtain ⟨fuel, s', ran, hrun, -⟩ :=
    hall twoQueued [0, 1] 0 (fun _ => False) _ twoQueued_inOrder (by simp) rfl (fun _ => rfl) hact
  have hin : InOrder 0 (timer_process twoQueued) [0, 1] :=
    twoQueued_inOrder.of_links ⟨twoQueued_good.list, twoQueued_good.enabled,
      twoQueued_good.unlinked⟩ rfl rfl
  have hact' : ∀ t ∈ [0, 1], due (timer_process twoQueued) t = true →
      RearmsAhead 0 (timer_process twoQueued) t (onExpiry noPeriods (fun _ s => some s) t) False :=
    fun t ht hd => (hact t ht hd).congr rfl rfl ⟨rfl, rfl, rfl, rfl⟩
  obtain ⟨hsurv, -⟩ := processed_sound hin rfl hact' hrun
  have hwaits : ∀ x : Fin 2, due (timer_process twoQueued) x = true := by decide
  simp [Survives, hwaits] at hsurv

/-- The callback of timer 0 arms it again for the next cycle. -/
theorem a_rearmed_timer_keeps_the_queue : ∃ fuel s' ran,
    processed noPeriods
      (fun t s => if t = 0 then timer_set_delay_u64 0 0x100000000 s else some s) fuel []
      (timer_process twoQueued) = some (s', ran) ∧ RunsAll twoQueued s' ran := by
  have hsurv : Survives (fun t : Fin 2 => t = 0) twoQueued [0, 1] :=
    Or.inr ⟨0, by decide, by decide, rfl⟩
  refine (expired_timers_run_unless_the_queue_empties twoQueued_inOrder (by simp) rfl
    fun t _ _ => callback_rearms rfl rfl ?_).mpr ⟨fun _ _ _ _ => rfl, hsurv⟩
  by_cases ht : t = 0
  · subst ht
    simp only [if_true, eq_self]
    exact set_delay_rearms 0 (by decide) (by decide)
  · simp only [ht, if_false]
    exact idle_rearms 0 twoQueued t

section

variable [DecidableEq τ] [Fintype τ]

/-! ## The end of the queue -/

/-- The queue and `timer_inited`. -/
structure Timers (τ P : Type) where
  queue : TimerState τ P
  timer_inited : Bool

/-- The `while` of `timer_close`. The link it goes on by is read after both links
of the timer are cleared. -/
def closeLoop : Nat → Option τ → TimerState τ P → Option (TimerState τ P)
  | _, none, s => some s
  | 0, some _, _ => none
  | fuel + 1, some r, s =>
    let s := { s with
      next := Function.update s.next r none
      prev := Function.update s.prev r none }
    closeLoop fuel (s.next r) s

def timer_close (g : Timers τ P) : Option (Timers τ P) := do
  let s ← closeLoop (Fintype.card τ) g.queue.timer_head g.queue
  some { queue := { s with timer_head := none }, timer_inited := false }

/-- No timer of the queue keeps a link, and the queue is empty. -/
def Detached (l : List τ) (s : TimerState τ P) : Prop :=
  s.timer_head = none ∧ ∀ t ∈ l, s.next t = none ∧ s.prev t = none

/-- The loop ends after the head, and clears the links of that timer alone. -/
theorem timer_close_head {g : Timers τ P} {t : τ} (hh : g.queue.timer_head = some t) :
    timer_close g = some
      { queue := { g.queue with
          next := Function.update g.queue.next t none
          prev := Function.update g.queue.prev t none
          timer_head := none }
        timer_inited := false } := by
  have hcard : 0 < Fintype.card τ := Fintype.card_pos_iff.mpr ⟨t⟩
  obtain ⟨fuel, hfuel⟩ : ∃ fuel, Fintype.card τ = fuel + 1 := ⟨_, (Nat.sub_add_cancel hcard).symm⟩
  unfold timer_close
  rw [hh, hfuel]
  simp only [closeLoop, Function.update_self]
  cases fuel <;> rfl

theorem timer_close_empty {g : Timers τ P} (hh : g.queue.timer_head = none) :
    timer_close g =
      some { queue := { g.queue with timer_head := none }, timer_inited := false } := by
  unfold timer_close
  rw [hh]
  cases Fintype.card τ <;> rfl

/-- A queue of more than one timer is left with links: the second timer still
points to the first. -/
theorem closing_detaches_at_most_one {g : Timers τ P} {l : List τ} (hg : Good g.queue l) :
    (∃ g', timer_close g = some g' ∧ Detached l g'.queue) ↔ l.length ≤ 1 := by
  cases l with
  | nil =>
    have hh : g.queue.timer_head = none := hg.list.head_eq
    rw [timer_close_empty hh]
    simp [Detached]
  | cons t l =>
    have hh : g.queue.timer_head = some t := hg.list.head_eq
    rw [timer_close_head hh]
    cases l with
    | nil => simp [Detached]
    | cons u l =>
      have hprev : g.queue.prev u = some t := hg.list.seg.2.2.1
      have htu : u ≠ t := by
        rintro rfl
        have := hg.list.nodup
        simp at this
      constructor
      · rintro ⟨g', hclose, -, hlinks⟩
        obtain rfl := Option.some.inj hclose
        have hu := (hlinks u (by simp)).2
        simp only [Function.update_of_ne htu] at hu
        rw [hprev] at hu
        exact absurd hu (by simp)
      · intro hlen
        simp at hlen

end

/-- The first timer is detached, and the second one still points to it. -/
theorem the_second_timer_keeps_its_link :
    ¬∀ (g : Timers (Fin 2) Unit) (l : List (Fin 2)), Good g.queue l →
      ∃ g', timer_close g = some g' ∧ Detached l g'.queue := by
  intro hall
  obtain ⟨g', hclose, -, hlinks⟩ := hall ⟨twoQueued, true⟩ [0, 1] twoQueued_good
  rw [@timer_close_head _ _ _ _ _ 0 rfl] at hclose
  obtain rfl := Option.some.inj hclose
  exact absurd (hlinks 1 (by simp)).2 (by decide)

theorem closing_two_timers :
    ¬∃ g', timer_close ⟨twoQueued, true⟩ = some g' ∧ Detached [0, 1] g'.queue :=
  mt (@closing_detaches_at_most_one _ _ _ _ ⟨twoQueued, true⟩ _ twoQueued_good).mp (by simp)

end blumach.timer
