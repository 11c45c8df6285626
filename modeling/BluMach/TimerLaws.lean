-- The laws of the event queue. Calls come from the CPU and from callbacks in the
-- middle of `timer_process`, in any order, and the list stays sorted as long as
-- the enabled timestamps fit in half of their range. A removed head leaves
-- `timer_target` behind, so the target is a bound only while it fits there too.
import BluMach.Timer

namespace blumach.timer

open linked_list wrap_order

variable {τ P : Type}

/-! ## The invariant -/

/-- The timers of `l` are the enabled ones, linked in this order. A timer out of
the list has no links. -/
structure Good (s : TimerState τ P) (l : List τ) : Prop where
  list : IsList s.next s.prev s.timer_head l.getLast? l
  enabled : ∀ t, t ∈ l ↔ s.enabled t = true
  unlinked : ∀ t, t ∉ l → s.next t = none ∧ s.prev t = none

def Sorted (s : TimerState τ P) (l : List τ) : Prop :=
  l.Pairwise fun a b => Before (s.ts_integer a) (s.ts_integer b)

/-- The enabled timestamps lie in one half of their range. -/
def Windowed (s : TimerState τ P) : Prop :=
  ∃ base, ∀ t, s.enabled t = true → InWindow base (s.ts_integer t)

theorem sorted_congr {s s' : TimerState τ P} {l : List τ}
    (h : ∀ x ∈ l, s'.ts_integer x = s.ts_integer x) (hs : Sorted s l) : Sorted s' l := by
  unfold Sorted at *
  rw [List.pairwise_iff_forall_sublist] at *
  intro a b hab
  have hsub := hab.subset
  rw [h a (hsub (by simp)), h b (hsub (by simp))]
  exact hs hab

/-- The head of the list stands in it. -/
theorem Good.head_mem {s : TimerState τ P} {l : List τ} (hg : Good s l) {h : τ}
    (hh : s.timer_head = some h) : h ∈ l := by
  rw [hg.list.head_eq] at hh
  exact List.mem_of_mem_head? hh

/-- A timer put between the earlier and the later ones. -/
theorem sorted_insert {s : TimerState τ P} {t : τ} {l₁ l₂ : List τ} (base : BitVec 64)
    (hw : ∀ x ∈ l₁ ++ t :: l₂, InWindow base (s.ts_integer x)) (h : Sorted s (l₁ ++ l₂))
    (h1 : ∀ a ∈ l₁, TIMER_LESS_THAN s t a = false)
    (h2 : ∀ b, l₂.head? = some b → TIMER_LESS_THAN s t b = true) : Sorted s (l₁ ++ t :: l₂) := by
  unfold Sorted at *
  have hbefore : ∀ x ∈ l₁ ++ t :: l₂, ∀ y ∈ l₁ ++ t :: l₂,
      (Before (s.ts_integer x) (s.ts_integer y) ↔
        offset base (s.ts_integer x) ≤ offset base (s.ts_integer y)) :=
    fun x hx y hy => before_iff (by decide) (hw x hx) (hw y hy)
  rw [List.pairwise_append] at h ⊢
  obtain ⟨g1, g2, g3⟩ := h
  have ht : t ∈ l₁ ++ t :: l₂ := by simp
  have hl1 : ∀ a ∈ l₁, Before (s.ts_integer a) (s.ts_integer t) := by
    intro a ha
    have ha' : a ∈ l₁ ++ t :: l₂ := by simp [ha]
    have := h1 a ha
    simp only [TIMER_LESS_THAN, TIMER_VAL_LESS_THAN_VAL, decide_eq_false_iff_not,
      hbefore t ht a ha'] at this
    rw [hbefore a ha' t ht]
    omega
  have hl2 : ∀ b ∈ l₂, Before (s.ts_integer t) (s.ts_integer b) := by
    intro b hb
    cases l₂ with
    | nil => exact absurd hb (by simp)
    | cons c l₂ =>
      have hc := h2 c rfl
      simp only [TIMER_LESS_THAN, TIMER_VAL_LESS_THAN_VAL, decide_eq_true_eq] at hc
      rcases List.mem_cons.mp hb with rfl | hb
      · exact hc
      · have hcb := (List.pairwise_cons.mp g2).1 b hb
        rw [hbefore c (by simp) b (by simp [hb])] at hcb
        rw [hbefore t ht c (by simp)] at hc
        rw [hbefore t ht b (by simp [hb])]
        omega
  refine ⟨g1, List.pairwise_cons.mpr ⟨hl2, g2⟩, ?_⟩
  intro a ha b hb
  rcases List.mem_cons.mp hb with rfl | hb
  · exact hl1 a ha
  · exact g3 a ha b hb

/-! ## The list operations -/

section

variable [DecidableEq τ]

/-- The fields that the list operations leave alone. -/
structure SameTimes (s s' : TimerState τ P) : Prop where
  ts_integer : s'.ts_integer = s.ts_integer
  tsc : s'.tsc = s.tsc
  stack : s'.stack = s.stack

theorem timer_disable_off {t : τ} {s : TimerState τ P} (h : s.enabled t = false) :
    timer_disable t s = some s := by
  simp [timer_disable, h]

theorem timer_disable_on {t : τ} {s : TimerState τ P} {l₁ l₂ : List τ}
    (hg : Good s (l₁ ++ t :: l₂)) :
    ∃ s', timer_disable t s = some s' ∧ Good s' (l₁ ++ l₂) ∧ SameTimes s s' ∧
      s'.timer_target = s.timer_target := by
  obtain ⟨hprev, hnext⟩ := seg_mid hg.list.seg
  rw [Option.or_none] at hprev hnext
  have hen : s.enabled t = true := (hg.enabled t).mp (by simp)
  have hd : t ∉ l₁ ++ l₂ := by
    have := hg.list.nodup
    rw [List.nodup_middle, List.nodup_cons] at this
    exact this.1
  have hmem : ∀ m, m ∈ l₁ ++ t :: l₂ ↔ m = t ∨ m ∈ l₁ ++ l₂ := by
    intro m
    simp only [List.mem_append, List.mem_cons]
    tauto
  have hhead := hg.list.head_eq
  have hiso : ¬(s.next t = none ∧ s.prev t = none ∧ s.timer_head ≠ some t) := by
    rintro ⟨-, hp, hne⟩
    exact hne ((hg.list.prev_eq_none_iff (by simp)).mp hp)
  let s' : TimerState τ P := { s with
    enabled := Function.update s.enabled t false
    in_callback := Function.update s.in_callback t false
    timer_head := l₁.head?.or l₂.head?
    next := Function.update (setOpt s.next l₁.getLast? l₂.head?) t none
    prev := Function.update (setOpt s.prev l₂.head? l₁.getLast?) t none }
  refine ⟨s', ?_, ⟨?_, ?_, ?_⟩, ⟨rfl, rfl, rfl⟩, rfl⟩
  · unfold timer_disable
    rw [if_neg (by simp [hen]), if_neg hiso]
    rcases List.eq_nil_or_concat l₁ with rfl | ⟨l₁, p, rfl⟩
    · have hp : s.prev t = none := hprev
      cases l₂ with
      | nil => simp [s', hp, hnext, setOpt]
      | cons b l₂ => simp [s', hp, hnext, setOpt]
    · rw [List.concat_eq_append] at *
      rw [List.getLast?_concat] at hprev
      have hpt : t ≠ p := by
        rintro rfl
        exact hd (by simp)
      have hh : s.timer_head = (l₁ ++ [p]).head? := by
        rw [hhead]
        cases l₁ <;> rfl
      have hhs : ∃ x, (l₁ ++ [p]).head? = some x := by
        cases l₁ with
        | nil => exact ⟨p, rfl⟩
        | cons y l₁ => exact ⟨y, rfl⟩
      obtain ⟨x, hx⟩ := hhs
      cases l₂ with
      | nil => simp [s', hprev, hnext, setOpt, hpt, hh]
      | cons b l₂ => simp [s', hprev, hnext, setOpt, hpt, hh]
  · rw [List.getLast?_append]
    apply IsList.congr hg.list.remove
    · intro m hm
      have hne : m ≠ t := by rintro rfl; exact hd hm
      simp [s', hne]
    · intro m hm
      have hne : m ≠ t := by rintro rfl; exact hd hm
      simp [s', hne]
  · intro m
    by_cases hmt : m = t
    · subst hmt
      simp [s', hd]
    · simp only [s', Function.update_of_ne hmt, ← hg.enabled, hmem, hmt, false_or]
  · intro m hm
    by_cases hmt : m = t
    · subst hmt
      simp [s']
    · have hml : m ∉ l₁ ++ t :: l₂ := by
        rw [hmem]
        simp [hmt, hm]
      simp only [s', Function.update_of_ne hmt]
      rw [setOpt_of_ne, setOpt_of_ne]
      · exact hg.unlinked m hml
      · intro hl
        exact hm (List.mem_append.mpr (Or.inr (List.mem_of_mem_head? hl)))
      · intro hl
        exact hm (List.mem_append.mpr (Or.inl (List.mem_of_mem_getLast? hl)))

/-- `timer` linked in between `l₁` and `l₂`. -/
def linked (t : τ) (l₁ l₂ : List τ) (s : TimerState τ P) : TimerState τ P :=
  { s with
    next := Function.update (setOpt s.next l₁.getLast? (some t)) t l₂.head?
    prev := Function.update (setOpt s.prev l₂.head? (some t)) t l₁.getLast?
    timer_head := l₁.head?.or (some t)
    timer_target := if l₁ = [] then s.ts_integer t else s.timer_target }

/-- The walk of `timer_enable` goes on from `node`, past the timers of `l₁`. -/
theorem enableLoop_spec {t node : τ} {s : TimerState τ P} {l₁ l₂ : List τ} {fuel : Nat}
    (hl : IsList s.next s.prev s.timer_head (l₁ ++ node :: l₂).getLast? (l₁ ++ node :: l₂))
    (ht : t ∉ l₁ ++ node :: l₂) (hu : s.next t = none ∧ s.prev t = none)
    (h1 : ∀ a ∈ l₁, TIMER_LESS_THAN s t a = false) (hf : l₂.length < fuel) :
    ∃ m₁ m₂, l₁ ++ node :: l₂ = m₁ ++ m₂ ∧ enableLoop t fuel node s = some (linked t m₁ m₂ s) ∧
      (∀ a ∈ m₁, TIMER_LESS_THAN s t a = false) ∧
      ∀ b, m₂.head? = some b → TIMER_LESS_THAN s t b = true := by
  induction fuel generalizing l₁ node l₂ with
  | zero => exact absurd hf (by omega)
  | succ fuel ih =>
    obtain ⟨hprev, hnext⟩ := seg_mid hl.seg
    rw [Option.or_none] at hprev hnext
    have hhead := hl.head_eq
    have htn : t ≠ node := by
      rintro rfl
      exact ht (by simp)
    unfold enableLoop
    by_cases hlt : TIMER_LESS_THAN s t node = true
    · refine ⟨l₁, node :: l₂, rfl, ?_, h1, ?_⟩
      · rw [if_pos hlt]
        rcases List.eq_nil_or_concat l₁ with rfl | ⟨l₁, p, rfl⟩
        · have hp : s.prev node = none := hprev
          simp [linked, setOpt, hp, htn, Function.update_comm htn]
        · rw [List.concat_eq_append] at *
          rw [List.getLast?_concat] at hprev
          have htp : t ≠ p := by
            rintro rfl
            exact ht (by simp)
          have hh : s.timer_head = some (l₁.head?.getD p) := by
            rw [hhead]
            cases l₁ <;> rfl
          simp [linked, setOpt, hprev, htn, Function.update_comm htn, Function.update_comm htp, hh]
      · intro b hb
        obtain rfl := Option.some.inj hb
        exact hlt
    · rw [Bool.not_eq_true] at hlt
      have h1' : ∀ a ∈ l₁ ++ [node], TIMER_LESS_THAN s t a = false := by
        intro a ha
        rcases List.mem_append.mp ha with ha | ha
        · exact h1 a ha
        · rwa [List.mem_singleton.mp ha]
      rw [if_neg (by rw [hlt]; exact Bool.false_ne_true)]
      cases l₂ with
      | nil =>
        have hn : s.next node = none := hnext
        refine ⟨l₁ ++ [node], [], by simp, ?_, h1', by simp⟩
        have hh : s.timer_head = some (l₁.head?.getD node) := by
          rw [hhead]
          cases l₁ <;> rfl
        have hself : Function.update (Function.update s.next node (some t)) t none =
            Function.update s.next node (some t) := by
          rw [Function.update_eq_self_iff, Function.update_of_ne htn]
          exact hu.1.symm
        simp [hn, linked, setOpt, hself, hh]
      | cons m l₂ =>
        have hn : s.next node = some m := hnext
        have happ : l₁ ++ [node] ++ m :: l₂ = l₁ ++ node :: m :: l₂ := by simp
        rw [hn]
        have hl' : IsList s.next s.prev s.timer_head (l₁ ++ [node] ++ m :: l₂).getLast?
            (l₁ ++ [node] ++ m :: l₂) := by rwa [happ]
        obtain ⟨m₁, m₂, g1, g2⟩ := ih hl' (by rwa [happ]) h1' (by simp at hf; omega)
        exact ⟨m₁, m₂, by rw [← g1, happ], g2⟩

/-- The queue with a timer linked in. -/
theorem good_linked {t : τ} {s : TimerState τ P} {l₁ l₂ : List τ} (hg : Good s (l₁ ++ l₂))
    (ht : t ∉ l₁ ++ l₂) :
    Good (linked t l₁ l₂ { s with enabled := Function.update s.enabled t true })
      (l₁ ++ t :: l₂) := by
  refine ⟨?_, ?_, ?_⟩
  · have h := hg.list.insert ht
    have htail : (l₁ ++ t :: l₂).getLast? = l₂.getLast?.or (some t) := by
      rw [List.getLast?_append, List.getLast?_cons]
      cases l₂.getLast? <;> rfl
    rw [htail]
    exact h
  · intro m
    by_cases hmt : m = t
    · subst hmt
      simp [linked]
    · have hm := hg.enabled m
      simp only [List.mem_append, List.mem_cons, linked, Function.update_of_ne hmt] at hm ⊢
      rw [← hm]
      tauto
  · intro m hm
    have hmt : m ≠ t := by
      rintro rfl
      exact hm (by simp)
    have hml : m ∉ l₁ ++ l₂ := by
      intro h
      apply hm
      simp only [List.mem_append, List.mem_cons] at h ⊢
      tauto
    simp only [linked, Function.update_of_ne hmt]
    rw [setOpt_of_ne, setOpt_of_ne]
    · exact hg.unlinked m hml
    · intro hl
      exact hml (List.mem_append.mpr (Or.inr (List.mem_of_mem_head? hl)))
    · intro hl
      exact hml (List.mem_append.mpr (Or.inl (List.mem_of_mem_getLast? hl)))

theorem timer_disable_spec (t : τ) {s : TimerState τ P} {l : List τ} (hg : Good s l) :
    ∃ s', timer_disable t s = some s' ∧ Good s' (l.erase t) ∧ SameTimes s s' ∧
      s'.timer_target = s.timer_target := by
  by_cases ht : t ∈ l
  · obtain ⟨l₁, l₂, rfl⟩ := List.append_of_mem ht
    have hd := hg.list.nodup
    have h1 : t ∉ l₁ := by
      intro h
      exact (List.nodup_append.mp hd).2.2 t h t (by simp) rfl
    rw [List.erase_append_right _ h1, List.erase_cons_head]
    exact timer_disable_on hg
  · have hoff : s.enabled t = false := by
      rw [← Bool.not_eq_true, ← hg.enabled]
      exact ht
    rw [List.erase_of_not_mem ht]
    exact ⟨s, timer_disable_off hoff, hg, ⟨rfl, rfl, rfl⟩, rfl⟩

/-! ## The operations on one timer -/

/-- What an operation on `t` makes of the queue. A head that was in the list
before, behind others, does not change `timer_target`. -/
structure Requeued (t : τ) (s s' : TimerState τ P) (l l' : List τ) : Prop where
  good : Good s' l'
  sorted : Windowed s' → Sorted s' l'
  ts_integer : ∀ x, x ≠ t → s'.ts_integer x = s.ts_integer x
  target : ∀ h, s'.timer_head = some h → s'.timer_target = s'.ts_integer h ∨
    (s'.timer_target = s.timer_target ∧ h ∈ l ∧ h ≠ t)
  stack : s'.stack = s.stack

theorem disable_requeued (t : τ) {s : TimerState τ P} {l : List τ} (hg : Good s l)
    (hs : Sorted s l) :
    ∃ s', timer_disable t s = some s' ∧ Requeued t s s' l (l.erase t) := by
  obtain ⟨s', h1, h2, h3, h4⟩ := timer_disable_spec t hg
  refine ⟨s', h1, h2, ?_, ?_, ?_, h3.stack⟩
  · intro _
    exact sorted_congr (fun x _ => congrFun h3.ts_integer x) (hs.sublist List.erase_sublist)
  · intro x _
    exact congrFun h3.ts_integer x
  · intro h hh
    have hm := h2.head_mem hh
    rw [hg.list.nodup.mem_erase_iff] at hm
    exact Or.inr ⟨h4, hm.2, hm.1⟩

theorem stop_requeued (ops : PeriodOps P) (t : τ) {s : TimerState τ P} {l : List τ}
    (hg : Good s l) (hs : Sorted s l) :
    ∃ s' l', timer_stop ops t s = some s' ∧ Requeued t s s' l l' := by
  let s₁ : TimerState τ P := { s with period := Function.update s.period t ops.zero }
  have hg1 : Good s₁ l := ⟨hg.list, hg.enabled, hg.unlinked⟩
  obtain ⟨s₂, h1, h2⟩ := disable_requeued t hg1 hs
  have hstop : timer_stop ops t s = some { s₂ with
      split := Function.update s₂.split t false
      in_callback := Function.update s₂.in_callback t false } := by
    unfold timer_stop
    by_cases hen : s.enabled t = true
    · simp only [hen, if_true]
      simp only [Option.bind_eq_bind]
      rw [h1]
      rfl
    · rw [Bool.not_eq_true] at hen
      rw [timer_disable_off (s := s₁) hen] at h1
      obtain rfl := Option.some.inj h1
      simp only [hen]
      rfl
  exact ⟨_, _, hstop, ⟨h2.good.list, h2.good.enabled, h2.good.unlinked⟩, h2.sorted, h2.ts_integer,
    h2.target, h2.stack⟩

end

section

variable [DecidableEq τ] [Fintype τ]

/-- How `timer_enable` goes on with a timer that is in no list. -/
def placeAlone (t : τ) (s : TimerState τ P) : Option (TimerState τ P) :=
  match s.timer_head with
  | none => some (linked t [] [] s)
  | some h => enableLoop t (Fintype.card τ) h s

/-- Where `timer_enable` links a timer in, once it is out of the list. -/
theorem enable_places (t : τ) {s s₁ : TimerState τ P} {l : List τ}
    (h1 : timer_disable t s = some s₁) (hg1 : Good s₁ l) (ht : t ∉ l) :
    ∃ m₁ m₂, l = m₁ ++ m₂ ∧
      timer_enable t s =
        some (linked t m₁ m₂ { s₁ with enabled := Function.update s₁.enabled t true }) ∧
      (∀ a ∈ m₁, TIMER_LESS_THAN s₁ t a = false) ∧
      ∀ b, m₂.head? = some b → TIMER_LESS_THAN s₁ t b = true := by
  have hu := hg1.unlinked t ht
  let s₂ : TimerState τ P := { s₁ with enabled := Function.update s₁.enabled t true }
  have hstart : timer_enable t s = placeAlone t s₂ := by
    unfold timer_enable
    by_cases hen : s.enabled t = true
    · simp only [hen, if_true, h1, Option.bind_eq_bind, Option.bind_some, hu.1, hu.2, ne_eq,
        not_true_eq_false, or_self, if_false]
      rfl
    · rw [Bool.not_eq_true] at hen
      rw [timer_disable_off hen] at h1
      obtain rfl := Option.some.inj h1
      simp only [hen, Bool.false_eq_true, Option.bind_eq_bind, Option.bind_some, hu.1, hu.2, ne_eq,
        not_true_eq_false, or_self, if_false]
      rfl
  rw [hstart]
  cases l with
  | nil =>
    have hh : s₂.timer_head = none := hg1.list.head_eq
    rw [placeAlone, hh]
    exact ⟨[], [], rfl, rfl, by simp, by simp⟩
  | cons h k =>
    have hh : s₂.timer_head = some h := hg1.list.head_eq
    have hlen : k.length < Fintype.card τ := by
      have hd : (t :: h :: k).Nodup := List.nodup_cons.mpr ⟨ht, hg1.list.nodup⟩
      have := hd.length_le_card
      simp at this
      omega
    rw [placeAlone, hh]
    have hl : IsList s₂.next s₂.prev s₂.timer_head ([] ++ h :: k).getLast? ([] ++ h :: k) :=
      hg1.list
    exact enableLoop_spec hl ht hu (by simp) hlen

theorem enable_requeued (t : τ) {s : TimerState τ P} {l : List τ} (hg : Good s l)
    (hs : Sorted s (l.erase t)) :
    ∃ s' l', timer_enable t s = some s' ∧ Requeued t s s' l l' := by
  obtain ⟨s₁, h1, hg1, hst, htg⟩ := timer_disable_spec t hg
  have hmem : ∀ x, x ∈ l.erase t ↔ x ≠ t ∧ x ∈ l := fun x => hg.list.nodup.mem_erase_iff
  have ht : t ∉ l.erase t := by
    rw [hmem]
    exact fun h => h.1 rfl
  have hs1 : Sorted s₁ (l.erase t) := sorted_congr (fun x _ => congrFun hst.ts_integer x) hs
  generalize l.erase t = k at *
  -- The timer goes in between two parts of the list without it.
  obtain ⟨m₁, m₂, rfl, hp1, hp2, hp3⟩ := enable_places t h1 hg1 ht
  have hgl := good_linked hg1 ht
  refine ⟨_, _, hp1, hgl, ?_, ?_, ?_, ?_⟩
  · rintro ⟨base, hw⟩
    apply sorted_insert base _ hs1 hp2 hp3
    intro x hx
    exact hw x ((hgl.enabled x).mp hx)
  · intro x _
    exact congrFun hst.ts_integer x
  · intro h hh
    cases m₁ with
    | nil =>
      left
      have hht : t = h := Option.some.inj hh
      subst hht
      rfl
    | cons a m₁ =>
      right
      have hha : a = h := Option.some.inj hh
      subst hha
      have ham := (hmem a).mp (List.mem_append.mpr (Or.inl List.mem_cons_self))
      refine ⟨?_, ham.2, ham.1⟩
      rw [← htg]
      rfl
  · exact hst.stack

/-- A timestamp changes while the timer is still linked. -/
theorem retimed_requeued (t : τ) {s s₁ : TimerState τ P} {l : List τ} (hg : Good s l)
    (hs : Sorted s l) (hn : s₁.next = s.next) (hp : s₁.prev = s.prev)
    (hh : s₁.timer_head = s.timer_head) (he : s₁.enabled = s.enabled)
    (hts : ∀ x, x ≠ t → s₁.ts_integer x = s.ts_integer x)
    (htg : s₁.timer_target = s.timer_target) (hst : s₁.stack = s.stack) :
    ∃ s' l', timer_enable t s₁ = some s' ∧ Requeued t s s' l l' := by
  have hg1 : Good s₁ l := by
    refine ⟨?_, ?_, ?_⟩
    · rw [hn, hp, hh]
      exact hg.list
    · rw [he]
      exact hg.enabled
    · rw [hn, hp]
      exact hg.unlinked
  have hs1 : Sorted s₁ (l.erase t) := by
    apply sorted_congr _ (hs.sublist List.erase_sublist)
    intro x hx
    exact hts x (hg.list.nodup.mem_erase_iff.mp hx).1
  obtain ⟨s', l', h1, h2⟩ := enable_requeued t hg1 hs1
  refine ⟨s', l', h1, h2.good, h2.sorted, ?_, ?_, ?_⟩
  · intro x hx
    rw [h2.ts_integer x hx, hts x hx]
  · rw [← htg]
    exact h2.target
  · rw [h2.stack, hst]

theorem advance_requeued (t : τ) (delay : BitVec 64) {s : TimerState τ P} {l : List τ}
    (hg : Good s l) (hs : Sorted s l) :
    ∃ s' l', timer_advance_u64 t delay s = some s' ∧ Requeued t s s' l l' := by
  unfold timer_advance_u64
  exact retimed_requeued t hg hs rfl rfl rfl rfl (fun x hx => Function.update_of_ne hx _ _) rfl rfl

theorem set_delay_requeued (t : τ) (delay : BitVec 64) {s : TimerState τ P} {l : List τ}
    (hg : Good s l) (hs : Sorted s l) :
    ∃ s' l', timer_set_delay_u64 t delay s = some s' ∧ Requeued t s s' l l' := by
  unfold timer_set_delay_u64
  exact retimed_requeued t hg hs rfl rfl rfl rfl (fun x hx => Function.update_of_ne hx _ _) rfl rfl

theorem do_period_requeued (t : τ) (period : BitVec 64) (start : Bool) {s : TimerState τ P}
    {l : List τ} (hg : Good s l) (hs : Sorted s l) :
    ∃ s' l', timer_do_period t period start s = some s' ∧ Requeued t s s' l l' := by
  unfold timer_do_period
  split
  · exact set_delay_requeued t period hg hs
  · exact advance_requeued t period hg hs

theorem advance_ex_requeued (ops : PeriodOps P) (t : τ) (start : Bool) {s : TimerState τ P}
    {l : List τ} (hg : Good s l) (hs : Sorted s l) :
    ∃ s' l', timer_advance_ex ops t start s = some s' ∧ Requeued t s s' l l' := by
  unfold timer_advance_ex
  split
  · obtain ⟨s', l', h1, h2⟩ := do_period_requeued t ops.maxDelay start hg hs
    rw [h1]
    exact ⟨_, l', rfl, ⟨h2.good.list, h2.good.enabled, h2.good.unlinked⟩, h2.sorted,
      h2.ts_integer, h2.target, h2.stack⟩
  · have hmid : ∃ s' l', (if ops.isPositive (s.period t) then
        timer_do_period t (ops.toDelay (s.period t)) start s else timer_disable t s) = some s' ∧
        Requeued t s s' l l' := by
      split
      · exact do_period_requeued t _ start hg hs
      · obtain ⟨s', h⟩ := disable_requeued t hg hs
        exact ⟨s', _, h⟩
    obtain ⟨s', l', h1, h2⟩ := hmid
    refine ⟨{ s' with
      period := Function.update s'.period t ops.zero
      split := Function.update s'.split t false }, l', ?_,
      ⟨h2.good.list, h2.good.enabled, h2.good.unlinked⟩, h2.sorted, h2.ts_integer, h2.target,
      h2.stack⟩
    split at h1
    · simp only [*, if_true]
      rfl
    · simp only [*]
      rfl

theorem on_auto_requeued (ops : PeriodOps P) (t : τ) (period : P) {s : TimerState τ P}
    {l : List τ} (hg : Good s l) (hs : Sorted s l) :
    ∃ s' l', timer_on_auto ops t period s = some s' ∧ Requeued t s s' l l' := by
  unfold timer_on_auto
  split
  · let s₁ : TimerState τ P := { s with period := Function.update s.period t period }
    have hg1 : Good s₁ l := ⟨hg.list, hg.enabled, hg.unlinked⟩
    obtain ⟨s', l', h1, h2⟩ := advance_ex_requeued ops t
      (ops.notPositive (s.period t) && !s.in_callback t) hg1 hs
    exact ⟨s', l', h1, h2.good, h2.sorted, h2.ts_integer, h2.target, h2.stack⟩
  · exact stop_requeued ops t hg hs

end

end blumach.timer
