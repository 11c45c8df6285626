-- Work that begins only when it comes before all the work in service, and of which the
-- first in service is what ends: whatever ends is what began last.
import Mathlib.Data.List.Basic
import Mathlib.Order.Basic
import Mathlib.Order.Lattice

namespace nesting

variable {α : Type} [LinearOrder α] {inService inService' : α → Bool} {begun : List α}

/-- The work in service, against all that ever began, the latest first: what comes first in
service is what began last. -/
structure Stacked (inService : α → Bool) (begun : List α) : Prop where
  known : ∀ a, inService a = true → a ∈ begun
  order : ∀ a b, inService a = true → inService b = true → a < b → begun.idxOf a < begun.idxOf b

theorem stacked_idle (h : ∀ a, inService a = false) (begun : List α) : Stacked inService begun :=
  ⟨fun a ha => absurd ha (by simp [h a]), fun a _ ha => absurd ha (by simp [h a])⟩

/-- Work begins that comes before all the work in service. -/
theorem Stacked.begin (h : Stacked inService begun) {a : α}
    (hfirst : ∀ b, inService b = true → a < b)
    (hnew : ∀ b, inService' b = true → b = a ∨ inService b = true) :
    Stacked inService' (a :: begun) := by
  refine ⟨fun b hb => ?_, fun b c hb hc hlt => ?_⟩
  · rcases hnew b hb with rfl | hold
    · exact List.mem_cons_self
    · exact List.mem_cons_of_mem a (h.known b hold)
  · rcases hnew c hc with rfl | holdc
    · -- nothing in service comes before what begins
      rcases hnew b hb with rfl | holdb
      · exact absurd hlt (lt_irrefl b)
      · exact absurd hlt (hfirst b holdb).asymm
    · have hc' : a ≠ c := (hfirst c holdc).ne
      rw [List.idxOf_cons_ne begun hc']
      rcases hnew b hb with rfl | holdb
      · rw [List.idxOf_cons_self]
        exact Nat.succ_pos _
      · rw [List.idxOf_cons_ne begun (hfirst b holdb).ne]
        exact Nat.succ_lt_succ (h.order b c holdb holdc hlt)

/-- Work ends. -/
theorem Stacked.finish (h : Stacked inService begun)
    (hold : ∀ b, inService' b = true → inService b = true) : Stacked inService' begun :=
  ⟨fun a ha => h.known a (hold a ha), fun a b ha hb => h.order a b (hold a ha) (hold b hb)⟩

/-- The first in service is the latest that is still in service. -/
theorem Stacked.latest (h : Stacked inService begun) {m : α} (hm : inService m = true)
    (hfirst : ∀ a, inService a = true → m ≤ a) : begun.find? inService = some m := by
  cases hfind : begun.find? inService with
  | none =>
    rw [List.find?_eq_none] at hfind
    exact absurd hm (hfind m (h.known m hm))
  | some k =>
    obtain ⟨hk, before, after, rfl, hbefore⟩ := List.find?_eq_some_iff_append.mp hfind
    rcases (hfirst k hk).eq_or_lt with rfl | hlt
    · rfl
    · have hidle : ∀ a, inService a = true → a ∉ before := fun a ha hmem => by
        have hno := hbefore a hmem
        rw [ha] at hno
        cases hno
      have horder := h.order m k hm hk hlt
      rw [List.idxOf_append_of_notMem (hidle m hm), List.idxOf_append_of_notMem (hidle k hk),
        List.idxOf_cons_self] at horder
      exact absurd horder (Nat.not_lt.mpr (Nat.le_add_right _ _))

omit [LinearOrder α] in
theorem latest_idle (h : ∀ a, inService a = false) (begun : List α) :
    begun.find? inService = none := by
  rw [List.find?_eq_none]
  intro a _
  simp [h a]

end nesting
