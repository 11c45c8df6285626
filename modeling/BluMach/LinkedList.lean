-- Doubly linked lists whose nodes keep their links in two functions, `next` and
-- `prev`. A segment is a run of nodes between two outside ones; a list is a
-- segment with nothing on either side. Insertion and removal are proved once
-- here, for a node anywhere in the list.
import Mathlib.Data.List.Basic
import Mathlib.Data.List.Nodup
import Mathlib.Logic.Function.Basic

namespace linked_list

variable {α : Type}

/-! ## Segments -/

/-- The nodes of `l` in order, after `p` and before `n`. -/
def Seg (next prev : α → Option α) : Option α → List α → Option α → Prop
  | _, [], _ => True
  | p, a :: l, n => prev a = p ∧ next a = l.head?.or n ∧ Seg next prev (some a) l n

theorem seg_append (next prev : α → Option α) (p n : Option α) (l₁ l₂ : List α) :
    Seg next prev p (l₁ ++ l₂) n ↔
      Seg next prev p l₁ (l₂.head?.or n) ∧ Seg next prev (l₁.getLast?.or p) l₂ n := by
  induction l₁ generalizing p with
  | nil => simp [Seg]
  | cons a l ih =>
    rw [List.cons_append, Seg, Seg, ih, List.head?_append, Option.or_assoc]
    have hlast : (a :: l).getLast?.or p = l.getLast?.or (some a) := by
      cases l with
      | nil => rfl
      | cons b l => simp [List.getLast?_cons]
    rw [hlast, and_assoc, and_assoc]

theorem seg_congr {next prev next' prev' : α → Option α} {p n : Option α} {l : List α}
    (hn : ∀ a ∈ l, next' a = next a) (hp : ∀ a ∈ l, prev' a = prev a)
    (h : Seg next prev p l n) : Seg next' prev' p l n := by
  induction l generalizing p with
  | nil => trivial
  | cons a l ih =>
    obtain ⟨h1, h2, h3⟩ := h
    refine ⟨?_, ?_, ?_⟩
    · rw [hp a (by simp), h1]
    · rw [hn a (by simp), h2]
    · exact ih (fun b hb => hn b (by simp [hb])) (fun b hb => hp b (by simp [hb])) h3

/-- The links of a node in the middle. -/
theorem seg_mid {next prev : α → Option α} {p n : Option α} {l₁ l₂ : List α} {a : α}
    (h : Seg next prev p (l₁ ++ a :: l₂) n) :
    prev a = l₁.getLast?.or p ∧ next a = l₂.head?.or n := by
  rw [seg_append] at h
  exact ⟨h.2.1, h.2.2.1⟩

theorem seg_first {next prev : α → Option α} {p n : Option α} {l : List α} {a : α}
    (h : Seg next prev p (a :: l) n) : prev a = p ∧ next a = l.head?.or n :=
  ⟨h.1, h.2.1⟩

/-- The links of every node give the segment. -/
theorem seg_of_mid {next prev : α → Option α} {p n : Option α} {l : List α}
    (h : ∀ l₁ a l₂, l = l₁ ++ a :: l₂ → prev a = l₁.getLast?.or p ∧ next a = l₂.head?.or n) :
    Seg next prev p l n := by
  induction l generalizing p with
  | nil => trivial
  | cons a l ih =>
    obtain ⟨h1, h2⟩ := h [] a l rfl
    refine ⟨h1, h2, ih ?_⟩
    intro l₁ b l₂ hl
    obtain ⟨g1, g2⟩ := h (a :: l₁) b l₂ (by rw [hl]; rfl)
    refine ⟨?_, g2⟩
    rw [g1]
    cases l₁ with
    | nil => rfl
    | cons c l₁ => simp [List.getLast?_cons]

/-- Read backwards, a segment is a segment with the links exchanged. -/
theorem seg_reverse {next prev : α → Option α} {p n : Option α} {l : List α}
    (h : Seg next prev p l n) : Seg prev next n l.reverse p := by
  apply seg_of_mid
  intro l₁ a l₂ hl
  have hl' : l = l₂.reverse ++ a :: l₁.reverse := by
    have := congrArg List.reverse hl
    simpa using this
  rw [hl'] at h
  obtain ⟨h1, h2⟩ := seg_mid h
  rw [h1, h2, List.getLast?_reverse, List.head?_reverse]
  exact ⟨rfl, rfl⟩

/-! ## Walks -/

/-- Following `link` from `o` meets the nodes of `l` and then nothing. -/
def Walk (link : α → Option α) : Option α → List α → Prop
  | o, [] => o = none
  | o, a :: l => o = some a ∧ Walk link (link a) l

theorem walk_head {link : α → Option α} {o : Option α} {l : List α} (h : Walk link o l) :
    o = l.head? := by
  cases l with
  | nil => exact h
  | cons a l => exact h.1

theorem walk_congr {link link' : α → Option α} {o : Option α} {l : List α}
    (h : ∀ a ∈ l, link' a = link a) (hw : Walk link o l) : Walk link' o l := by
  induction l generalizing o with
  | nil => exact hw
  | cons a l ih =>
    refine ⟨hw.1, ?_⟩
    rw [h a (by simp)]
    exact ih (fun b hb => h b (by simp [hb])) hw.2

/-- A node put after the last one. -/
theorem walk_push_back {link link' : α → Option α} {o : Option α} {l : List α} {x b : α}
    (hw : Walk link o (l ++ [x])) (h : ∀ a ∈ l, link' a = link a) (hx : link' x = some b)
    (hb : link' b = none) : Walk link' o (l ++ [x] ++ [b]) := by
  induction l generalizing o with
  | nil => exact ⟨hw.1, hx, hb⟩
  | cons a l ih =>
    refine ⟨hw.1, ?_⟩
    rw [h a (by simp)]
    exact ih hw.2 fun c hc => h c (by simp [hc])

theorem walk_mid {link : α → Option α} {o : Option α} {l₁ l₂ : List α} {a : α}
    (h : Walk link o (l₁ ++ a :: l₂)) : link a = l₂.head? := by
  induction l₁ generalizing o with
  | nil => exact walk_head h.2
  | cons b l₁ ih => exact ih h.2

/-- A segment with nothing after it is a walk along `next`. -/
theorem walk_of_seg {next prev : α → Option α} {p : Option α} {l : List α}
    (h : Seg next prev p l none) : Walk next l.head? l := by
  induction l generalizing p with
  | nil => rfl
  | cons a l ih =>
    obtain ⟨-, h2, h3⟩ := h
    rw [Option.or_none] at h2
    exact ⟨rfl, h2 ▸ ih h3⟩

/-! ## Lists -/

/-- `l` is the list from `head` to `tail`. -/
structure IsList (next prev : α → Option α) (head tail : Option α) (l : List α) : Prop where
  head_eq : head = l.head?
  tail_eq : tail = l.getLast?
  nodup : l.Nodup
  seg : Seg next prev none l none

theorem isList_nil (next prev : α → Option α) : IsList next prev none none [] :=
  ⟨rfl, rfl, List.nodup_nil, trivial⟩

theorem IsList.walk_next {next prev : α → Option α} {head tail : Option α} {l : List α}
    (h : IsList next prev head tail l) : Walk next head l :=
  h.head_eq ▸ walk_of_seg h.seg

theorem IsList.walk_prev {next prev : α → Option α} {head tail : Option α} {l : List α}
    (h : IsList next prev head tail l) : Walk prev tail l.reverse := by
  have hw := walk_of_seg (seg_reverse h.seg)
  rw [List.head?_reverse] at hw
  exact h.tail_eq ▸ hw

/-- The two walks make the list. -/
theorem isList_of_walks {next prev : α → Option α} {head tail : Option α} {l : List α}
    (hn : Walk next head l) (hp : Walk prev tail l.reverse) (hd : l.Nodup) :
    IsList next prev head tail l := by
  refine ⟨walk_head hn, ?_, hd, ?_⟩
  · rw [walk_head hp, List.head?_reverse]
  · apply seg_of_mid
    intro l₁ a l₂ hl
    have hr : l.reverse = l₂.reverse ++ a :: l₁.reverse := by rw [hl]; simp
    rw [hl] at hn
    rw [hr] at hp
    rw [walk_mid hn, walk_mid hp, List.head?_reverse, Option.or_none, Option.or_none]
    exact ⟨rfl, rfl⟩

/-- The list depends on the links of its own nodes only. -/
theorem IsList.congr {next prev next' prev' : α → Option α} {head tail : Option α} {l : List α}
    (h : IsList next prev head tail l) (hn : ∀ a ∈ l, next' a = next a)
    (hp : ∀ a ∈ l, prev' a = prev a) : IsList next' prev' head tail l :=
  ⟨h.head_eq, h.tail_eq, h.nodup, seg_congr hn hp h.seg⟩

/-- Only the first node has nothing before it. -/
theorem IsList.prev_eq_none_iff {next prev : α → Option α} {head tail : Option α} {l : List α}
    (h : IsList next prev head tail l) {a : α} (ha : a ∈ l) : prev a = none ↔ head = some a := by
  obtain ⟨l₁, l₂, rfl⟩ := List.append_of_mem ha
  obtain ⟨h1, -⟩ := seg_mid h.seg
  rw [h1, Option.or_none, h.head_eq]
  cases l₁ with
  | nil => simp
  | cons b l₁ =>
    have hne : b ≠ a := by
      rintro rfl
      have := h.nodup
      simp at this
    simp [List.getLast?_cons, hne]

/-! ## Changes of one link -/

section

variable [DecidableEq α]

/-- A store through a pointer, when the pointer is not null. -/
def setOpt {β : Type} (f : α → β) (o : Option α) (v : β) : α → β :=
  match o with
  | some a => Function.update f a v
  | none => f

theorem setOpt_of_ne {β : Type} (f : α → β) (o : Option α) (v : β) (b : α) (h : o ≠ some b) :
    setOpt f o v b = f b := by
  cases o with
  | none => rfl
  | some a =>
    have hne : b ≠ a := by
      rintro rfl
      exact h rfl
    simp [setOpt, hne]

theorem setOpt_some {β : Type} (f : α → β) (a : α) (v : β) : setOpt f (some a) v a = v := by
  simp [setOpt]

/-- A new node after the last one of a segment. -/
theorem seg_set_last {next prev : α → Option α} {p x : Option α} {l : List α} (y : Option α)
    (h : Seg next prev p l x) (hd : l.Nodup) : Seg (setOpt next l.getLast? y) prev p l y := by
  rcases List.eq_nil_or_concat l with rfl | ⟨l, b, rfl⟩
  · trivial
  · rw [List.concat_eq_append] at *
    rw [List.getLast?_concat]
    rw [seg_append] at h ⊢
    have hb : b ∉ l := by
      have := List.nodup_append.mp hd
      intro hb
      exact this.2.2 b hb b (by simp) rfl
    refine ⟨?_, h.2.1, ?_, trivial⟩
    · apply seg_congr _ (fun _ _ => rfl) h.1
      intro a ha
      apply setOpt_of_ne
      rintro hab
      obtain rfl := Option.some.inj hab
      exact hb ha
    · rw [setOpt_some]
      rfl

theorem seg_set_first {next prev : α → Option α} {x n : Option α} {l : List α} (y : Option α)
    (h : Seg next prev x l n) (hd : l.Nodup) : Seg next (setOpt prev l.head? y) y l n := by
  have h1 := seg_set_last y (seg_reverse h) (List.nodup_reverse.mpr hd)
  rw [List.getLast?_reverse] at h1
  have h2 := seg_reverse h1
  rwa [List.reverse_reverse] at h2

/-- Removal of a node, wherever it stands. -/
theorem IsList.remove {next prev : α → Option α} {head tail : Option α} {l₁ l₂ : List α} {a : α}
    (h : IsList next prev head tail (l₁ ++ a :: l₂)) :
    IsList (setOpt next l₁.getLast? l₂.head?) (setOpt prev l₂.head? l₁.getLast?)
      (l₁.head?.or l₂.head?) (l₂.getLast?.or l₁.getLast?) (l₁ ++ l₂) := by
  obtain ⟨hd1, hd2, hdis⟩ := List.nodup_append.mp h.nodup
  obtain ⟨-, hd2⟩ := List.nodup_cons.mp hd2
  have hs := h.seg
  rw [seg_append] at hs
  have hdis' : ∀ b ∈ l₁, ∀ c ∈ l₂, b ≠ c := fun b hb c hc => hdis b hb c (by simp [hc])
  refine ⟨List.head?_append.symm, List.getLast?_append.symm,
    List.nodup_append.mpr ⟨hd1, hd2, hdis'⟩, ?_⟩
  rw [seg_append, Option.or_none, Option.or_none]
  constructor
  · apply seg_congr (fun _ _ => rfl) _ (seg_set_last l₂.head? hs.1 hd1)
    intro b hb
    apply setOpt_of_ne
    intro hh
    exact hdis' b hb b (List.mem_of_mem_head? hh) rfl
  · apply seg_congr _ (fun _ _ => rfl) (seg_set_first l₁.getLast? hs.2.2.2 hd2)
    intro b hb
    apply setOpt_of_ne
    intro hh
    exact hdis' b (List.mem_of_mem_getLast? hh) b hb rfl

/-- Insertion of a node between two parts of a list. -/
theorem IsList.insert {next prev : α → Option α} {head tail : Option α} {l₁ l₂ : List α} {a : α}
    (h : IsList next prev head tail (l₁ ++ l₂)) (ha : a ∉ l₁ ++ l₂) :
    IsList (Function.update (setOpt next l₁.getLast? (some a)) a l₂.head?)
      (Function.update (setOpt prev l₂.head? (some a)) a l₁.getLast?)
      (l₁.head?.or (some a)) (l₂.getLast?.or (some a)) (l₁ ++ a :: l₂) := by
  obtain ⟨hd1, hd2, hdis⟩ := List.nodup_append.mp h.nodup
  have ha1 : a ∉ l₁ := fun hb => ha (by simp [hb])
  have ha2 : a ∉ l₂ := fun hb => ha (by simp [hb])
  have hs := h.seg
  rw [seg_append] at hs
  refine ⟨by rw [List.head?_append]; rfl, ?_, ?_, ?_⟩
  · rw [List.getLast?_append, List.getLast?_cons]
    cases l₂.getLast? <;> simp
  · rw [List.nodup_append]
    refine ⟨hd1, List.nodup_cons.mpr ⟨ha2, hd2⟩, ?_⟩
    intro b hb c hc
    rcases List.mem_cons.mp hc with rfl | hc
    · rintro rfl; exact ha1 hb
    · exact hdis b hb c hc
  · rw [seg_append]
    refine ⟨?_, ?_, ?_, ?_⟩
    · have h1 := seg_set_last (some a) hs.1 hd1
      apply seg_congr _ _ h1
      · intro b hb
        have hne : b ≠ a := by
          rintro rfl
          exact ha1 hb
        simp [hne]
      · intro b hb
        have hne : b ≠ a := by
          rintro rfl
          exact ha1 hb
        rw [Function.update_of_ne hne]
        apply setOpt_of_ne
        intro hh
        exact hdis b hb b (List.mem_of_mem_head? hh) rfl
    · rw [Function.update_self, Option.or_none]
    · rw [Function.update_self, Option.or_none]
    · have h2 := seg_set_first (some a) hs.2 hd2
      apply seg_congr _ _ h2
      · intro b hb
        have hne : b ≠ a := by
          rintro rfl
          exact ha2 hb
        rw [Function.update_of_ne hne]
        apply setOpt_of_ne
        intro hh
        exact hdis b (List.mem_of_mem_getLast? hh) b hb rfl
      · intro b hb
        have hne : b ≠ a := by
          rintro rfl
          exact ha2 hb
        simp [hne]

end

end linked_list
