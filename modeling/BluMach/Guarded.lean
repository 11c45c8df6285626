-- Programs that fail just when a guard does not hold, one after another: a run is without a
-- failure when the guard holds at each of its steps.
import Mathlib.Data.Nat.Notation

namespace guarded

variable {ε α : Type} {m : Except ε α} {g g' : Prop} {p p' : α → Prop}

/-- Under the guard there is a result, and it is as it should be; else there is none. -/
def Guarded (m : Except ε α) (g : Prop) (p : α → Prop) : Prop :=
  match m with
  | .ok a => g ∧ p a
  | .error _ => ¬g

theorem Guarded.ok {a : α} (h : p a) : Guarded (.ok a : Except ε α) True p := ⟨trivial, h⟩

theorem Guarded.congr (h : Guarded m g p) (hg : g ↔ g') : Guarded m g' p := by
  cases m with
  | ok a => exact ⟨hg.mp h.1, h.2⟩
  | error e => exact fun hg' => h (hg.mpr hg')

theorem Guarded.mono (h : Guarded m g p) (hp : ∀ a, p a → p' a) : Guarded m g p' := by
  cases m with
  | ok a => exact ⟨h.1, hp a h.2⟩
  | error e => exact h

/-- A guard on one branch of a program, in that branch. -/
theorem Guarded.needs {c : Prop} (hc : c) (h : Guarded m g p) : Guarded m (c → g) p :=
  h.congr ⟨fun hg _ => hg, fun hg => hg hc⟩

/-- A guard on one branch of a program, in the others. -/
theorem Guarded.free {c : Prop} (hc : ¬c) (h : Guarded m True p) : Guarded m (c → g) p :=
  h.congr ⟨fun _ hc' => absurd hc' hc, fun _ => trivial⟩

theorem Guarded.map {β : Type} {f : α → β} {q : β → Prop} (h : Guarded m g fun a => q (f a)) :
    Guarded (m.map f) g q := by
  cases m with
  | ok a => exact h
  | error e => exact h

theorem Guarded.isOk_iff (h : Guarded m g p) : (∃ a, m = .ok a) ↔ g := by
  cases m with
  | ok a => exact iff_of_true ⟨a, rfl⟩ h.1
  | error e => exact iff_of_false (fun ⟨_, ha⟩ => nomatch ha) h

/-- What follows a program that cannot fail. -/
theorem Guarded.of_ok {a : α} (hm : m = .ok a) (h : p a) : Guarded m True p := by
  rw [hm]
  exact .ok h

/-! ## Runs -/

section

variable {σ ι : Type} {step : σ → ι → Except ε σ} {inv : σ → Prop} {good : σ → ι → Prop}

/-- The condition holds at every step that a run comes to. -/
def Along (step : σ → ι → Except ε σ) (good : σ → ι → Prop) (s : σ) (l : List ι) : Prop :=
  ∀ before i after, l = before ++ i :: after → ∀ t, before.foldlM step s = .ok t → good t i

theorem along_nil {s : σ} : Along step good s [] := fun before i after hl =>
  absurd hl.symm (List.append_ne_nil_of_right_ne_nil before (List.cons_ne_nil i after))

theorem along_cons {s : σ} {i : ι} {l : List ι} :
    Along step good s (i :: l) ↔ good s i ∧ ∀ t, step s i = .ok t → Along step good t l := by
  constructor
  · intro h
    refine ⟨h [] i l rfl s rfl, fun t ht before j after hl u hu => ?_⟩
    refine h (i :: before) j after (by rw [hl]; rfl) u ?_
    rw [List.foldlM_cons, ht]
    exact hu
  · rintro ⟨hgood, hrest⟩ before j after hl u hu
    cases before with
    | nil =>
      cases hl
      cases hu
      exact hgood
    | cons b before =>
      obtain ⟨rfl, hrestEq⟩ := List.cons.inj hl
      rw [List.foldlM_cons] at hu
      cases ht : step s i with
      | error e =>
        rw [ht] at hu
        cases hu
      | ok t =>
        rw [ht] at hu
        exact hrest t ht before j after hrestEq u hu

/-- Step by step, and so for a run: it fails just when some step does not meet its guard. -/
theorem guarded_foldlM (h : ∀ s i, inv s → Guarded (step s i) (good s i) inv) {s : σ} (hs : inv s)
    (l : List ι) : Guarded (l.foldlM step s) (Along step good s l) inv := by
  induction l generalizing s with
  | nil => exact ⟨along_nil, hs⟩
  | cons i l ih =>
    have hstep := h s i hs
    rw [List.foldlM_cons]
    cases ht : step s i with
    | error e =>
      rw [ht] at hstep
      exact fun halong => hstep (along_cons.mp halong).1
    | ok t =>
      rw [ht] at hstep
      refine (ih hstep.2).congr ⟨fun halong => along_cons.mpr ⟨hstep.1, ?_⟩, fun halong => ?_⟩
      · intro u hu
        obtain rfl := Except.ok.inj (ht.symm.trans hu)
        exact halong
      · exact (along_cons.mp halong).2 t ht

theorem along_cons_ok {s t : σ} {i : ι} {l : List ι} (hstep : step s i = .ok t) (hi : good s i)
    (hl : Along step good t l) : Along step good s (i :: l) := by
  refine along_cons.mpr ⟨hi, fun u hu => ?_⟩
  obtain rfl := Except.ok.inj (hstep.symm.trans hu)
  exact hl

/-- What a program comes to, and the errors that it may end with. -/
def Ends (m : Except ε α) (p : α → Prop) (q : ε → Prop) : Prop :=
  match m with
  | .ok a => p a
  | .error e => q e

/-- A run whose steps all meet the condition keeps the invariant, or ends with an error that its
steps may end with. -/
theorem ends_foldlM {q : ε → Prop} (h : ∀ s i, inv s → good s i → Ends (step s i) inv q) {s : σ}
    (hs : inv s) (l : List ι) (hl : Along step good s l) : Ends (l.foldlM step s) inv q := by
  induction l generalizing s with
  | nil => exact hs
  | cons i l ih =>
    obtain ⟨hi, hrest⟩ := along_cons.mp hl
    have hstep := h s i hs hi
    rw [List.foldlM_cons]
    cases ht : step s i with
    | error e =>
      rw [ht] at hstep
      exact hstep
    | ok t =>
      rw [ht] at hstep
      exact ih hstep (hrest t ht)

/-- Steps that keep the invariant and cannot fail: what each of them does holds all along a run. -/
theorem along_of_steps (h : ∀ s i, inv s → ∃ t, step s i = .ok t ∧ inv t ∧ good s i) {s : σ}
    (hs : inv s) (l : List ι) : (∃ t, l.foldlM step s = .ok t) ∧ Along step good s l := by
  induction l generalizing s with
  | nil => exact ⟨⟨s, rfl⟩, along_nil⟩
  | cons i l ih =>
    obtain ⟨t, ht, hinv, hgood⟩ := h s i hs
    obtain ⟨⟨u, hu⟩, halong⟩ := ih hinv
    refine ⟨⟨u, ?_⟩, along_cons_ok ht hgood halong⟩
    rw [List.foldlM_cons, ht]
    exact hu

/-- What follows a program, after a function. -/
theorem ends_map {β : Type} {f : α → β} {p : β → Prop} {q : ε → Prop}
    (h : Ends m (fun a => p (f a)) q) : Ends (m.map f) p q := by
  cases m with
  | ok a => exact h
  | error e => exact h

theorem ends_bind {β : Type} {f : α → Except ε β} {p : α → Prop} {p' : β → Prop} {q : ε → Prop}
    (h : Ends m p q) (hf : ∀ a, p a → Ends (f a) p' q) : Ends (m >>= f) p' q := by
  cases m with
  | ok a => exact hf a h
  | error e => exact h

theorem Ends.mono {p p' : α → Prop} {q : ε → Prop} (h : Ends m p q) (hp : ∀ a, p a → p' a) :
    Ends m p' q := by
  cases m with
  | ok a => exact hp a h
  | error e => exact h

/-- The invariant holds of every state that a run comes to. -/
def Throughout (step : σ → ι → Except ε σ) (inv : σ → Prop) (s : σ) (l : List ι) : Prop :=
  ∀ before after, l = before ++ after → ∀ t, before.foldlM step s = .ok t → inv t

theorem throughout_cons {s : σ} {i : ι} {l : List ι} :
    Throughout step inv s (i :: l) ↔ inv s ∧ ∀ t, step s i = .ok t → Throughout step inv t l := by
  constructor
  · intro h
    refine ⟨h [] (i :: l) rfl s rfl, fun t ht before after hl u hu => ?_⟩
    refine h (i :: before) after (by rw [hl, List.cons_append]) u ?_
    rw [List.foldlM_cons, ht]
    exact hu
  · rintro ⟨hinv, hrest⟩ before after hl u hu
    cases before with
    | nil =>
      cases hu
      exact hinv
    | cons b before =>
      obtain ⟨rfl, hrestEq⟩ := List.cons.inj hl
      rw [List.foldlM_cons] at hu
      cases ht : step s i with
      | error e =>
        rw [ht] at hu
        cases hu
      | ok t =>
        rw [ht] at hu
        exact hrest t ht before after hrestEq u hu

theorem Throughout.start {s : σ} {l : List ι} (h : Throughout step inv s l) : inv s :=
  h [] l rfl s rfl

theorem Throughout.mono {inv' : σ → Prop} {s : σ} {l : List ι} (h : Throughout step inv s l)
    (hinv : ∀ t, inv t → inv' t) : Throughout step inv' s l :=
  fun before after hl t ht => hinv t (h before after hl t ht)

/-- Where one step keeps the invariant just under its condition, a run keeps it just when each of
its steps meets its own. The rest of what the steps rely on is kept in any case. -/
theorem throughout_iff {rest : σ → Prop}
    (h : ∀ s i, rest s → inv s →
      Ends (step s i) (fun t => rest t ∧ (inv t ↔ good s i)) fun _ => good s i) {s : σ}
    (hr : rest s) (hs : inv s) (l : List ι) : Throughout step inv s l ↔ Along step good s l := by
  induction l generalizing s with
  | nil =>
    refine iff_of_true (fun before after hl t ht => ?_) along_nil
    obtain ⟨rfl, -⟩ := List.append_eq_nil_iff.mp hl.symm
    cases ht
    exact hs
  | cons i l ih =>
    rw [throughout_cons, along_cons]
    have hstep := h s i hr hs
    cases ht : step s i with
    | error e =>
      rw [ht] at hstep
      exact iff_of_true ⟨hs, nofun⟩ ⟨hstep, nofun⟩
    | ok t =>
      rw [ht] at hstep
      obtain ⟨hrest, hiff⟩ : rest t ∧ (inv t ↔ good s i) := hstep
      constructor
      · rintro ⟨-, hall⟩
        have ht' := hall t rfl
        refine ⟨hiff.mp ht'.start, fun u hu => ?_⟩
        obtain rfl := Except.ok.inj hu
        exact (ih hrest ht'.start).mp ht'
      · rintro ⟨hgood, hall⟩
        refine ⟨hs, fun u hu => ?_⟩
        obtain rfl := Except.ok.inj hu
        exact (ih hrest (hiff.mpr hgood)).mpr (hall t rfl)

end

/-! ## Runs beside an abstract one -/

/-- Under the guard there is a result, and it is as it should be; else there is such an error. -/
def Checked (m : Except ε α) (g : Prop) (p : α → Prop) (q : ε → Prop) : Prop :=
  match m with
  | .ok a => g ∧ p a
  | .error e => ¬g ∧ q e

theorem Checked.of_ok {q : ε → Prop} {a : α} (hm : m = .ok a) (hg : g) (h : p a) :
    Checked m g p q := by
  rw [hm]
  exact ⟨hg, h⟩

theorem Checked.isOk_iff {q : ε → Prop} (h : Checked m g p q) : (∃ a, m = .ok a) ↔ g := by
  cases m with
  | ok a => exact iff_of_true ⟨a, rfl⟩ h.1
  | error e => exact iff_of_false (fun ⟨_, ha⟩ => nomatch ha) h.1

/-- A run beside that of an abstract model: it goes on as long as each step is allowed, and keeps
what stands for the state. -/
theorem checked_foldlM {σ τ ι : Type} {step : σ → ι → Except ε σ} {model : τ → ι → τ}
    {stands : σ → τ → Prop} {good : ι → Prop} {q : ε → Prop}
    (h : ∀ s t i, stands s t → Checked (step s i) (good i) (fun s' => stands s' (model t i)) q)
    {s : σ} {t : τ} (hs : stands s t) (l : List ι) :
    Checked (l.foldlM step s) (∀ i ∈ l, good i) (fun s' => stands s' (l.foldl model t)) q := by
  induction l generalizing s t with
  | nil => exact ⟨fun i hi => absurd hi List.not_mem_nil, hs⟩
  | cons i l ih =>
    have hstep := h s t i hs
    rw [List.foldlM_cons, List.foldl_cons]
    cases hi : step s i with
    | error e =>
      rw [hi] at hstep
      exact ⟨fun hall => hstep.1 (hall i List.mem_cons_self), hstep.2⟩
    | ok s' =>
      rw [hi] at hstep
      have hrest := ih hstep.2
      change Checked (l.foldlM step s') _ _ _
      cases hl : l.foldlM step s' with
      | error e =>
        rw [hl] at hrest
        exact ⟨fun hall => hrest.1 fun j hj => hall j (List.mem_cons_of_mem i hj), hrest.2⟩
      | ok s'' =>
        rw [hl] at hrest
        refine ⟨fun j hj => ?_, hrest.2⟩
        rcases List.mem_cons.mp hj with rfl | hj
        · exact hstep.1
        · exact hrest.1 j hj

end guarded
