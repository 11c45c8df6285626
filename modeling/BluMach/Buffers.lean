-- Buffers as functions: lists that stand in them, parts of them as lists, and what a store
-- outside of a part leaves alone.
import Mathlib.Data.List.Basic
import Mathlib.Logic.Function.Basic

namespace buffers

variable {α : Type} {b b' b'' : Nat → α} {p q n m i lo hi lo' hi' : Nat} {xs ys : List α} {x : α}

/-! ## Stores -/

/-- The elements outside of a range are as they were. -/
def SameOutside (b b' : Nat → α) (lo hi : Nat) : Prop :=
  ∀ j, j < lo ∨ hi ≤ j → b' j = b j

theorem SameOutside.refl (b : Nat → α) (lo hi : Nat) : SameOutside b b lo hi := fun _ _ => rfl

theorem SameOutside.mono (h : SameOutside b b' lo hi) (hlo : lo' ≤ lo) (hhi : hi ≤ hi') :
    SameOutside b b' lo' hi' := by
  intro j hj
  exact h j (by omega)

theorem SameOutside.trans (h : SameOutside b b' lo hi) (h' : SameOutside b' b'' lo hi) :
    SameOutside b b'' lo hi := by
  intro j hj
  rw [h' j hj, h j hj]

theorem SameOutside.update (h : SameOutside b b' lo hi) (hlo : lo ≤ i) (hhi : i < hi) (x : α) :
    SameOutside b (Function.update b' i x) lo hi := by
  intro j hj
  rw [Function.update_of_ne (by omega), h j hj]

/-! ## Lists in a buffer -/

/-- A list stands in a buffer. -/
def Has (b : Nat → α) (p : Nat) (xs : List α) : Prop :=
  ∀ j (h : j < xs.length), b (p + j) = xs[j]

theorem Has.nil (b : Nat → α) (p : Nat) : Has b p [] := by
  intro j hj
  simp at hj

theorem has_append : Has b p (xs ++ ys) ↔ Has b p xs ∧ Has b (p + xs.length) ys := by
  constructor
  · intro h
    refine ⟨fun j hj => ?_, fun j hj => ?_⟩
    · have hget := h j (by rw [List.length_append]; omega)
      rwa [List.getElem_append_left hj] at hget
    · have hget := h (xs.length + j) (by rw [List.length_append]; omega)
      rw [List.getElem_append_right (Nat.le_add_right _ _)] at hget
      simpa [Nat.add_assoc] using hget
  · rintro ⟨hxs, hys⟩ j hj
    rw [List.length_append] at hj
    rw [List.getElem_append]
    split
    · exact hxs j ‹_›
    · have hget := hys (j - xs.length) (by omega)
      rwa [show p + xs.length + (j - xs.length) = p + j by omega] at hget

theorem has_singleton : Has b p [x] ↔ b p = x := by
  constructor
  · intro h
    exact h 0 (by simp)
  · intro h j hj
    rw [List.length_singleton] at hj
    obtain rfl : j = 0 := by omega
    exact h

theorem has_cons : Has b p (x :: xs) ↔ b p = x ∧ Has b (p + 1) xs := by
  rw [← List.singleton_append, has_append, has_singleton, List.length_singleton]

theorem Has.congr (h : Has b p xs) (hsame : ∀ j, p ≤ j → j < p + xs.length → b' j = b j) :
    Has b' p xs := by
  intro j hj
  rw [hsame _ (by omega) (by omega)]
  exact h j hj

theorem Has.keep (h : Has b p xs) (hsame : SameOutside b b' lo hi)
    (hp : p + xs.length ≤ lo ∨ hi ≤ p) : Has b' p xs :=
  h.congr fun _ _ _ => hsame _ (by omega)

theorem Has.update (h : Has b p xs) (hi : i < p ∨ p + xs.length ≤ i) (x : α) :
    Has (Function.update b i x) p xs :=
  h.congr fun _ _ _ => Function.update_of_ne (by omega) _ _

/-- The store of one element behind a list. -/
theorem Has.snoc (h : Has b p xs) (x : α) :
    Has (Function.update b (p + xs.length) x) p (xs ++ [x]) :=
  has_append.mpr ⟨h.update (.inr (Nat.le_refl _)) x, has_singleton.mpr (Function.update_self ..)⟩

theorem Has.getElem? (h : Has b p xs) (hi : i < xs.length) : xs[i]? = some (b (p + i)) := by
  rw [h i hi, List.getElem?_eq_getElem hi]

theorem Has.unique (h : Has b p xs) (h' : Has b p ys) (hlen : xs.length = ys.length) : xs = ys := by
  refine List.ext_getElem hlen fun j hj hj' => ?_
  rw [← h j hj, h' j hj']

/-! ## Parts of a buffer -/

def slice (b : Nat → α) (p n : Nat) : List α := (List.range n).map fun j => b (p + j)

@[simp] theorem length_slice : (slice b p n).length = n := by
  unfold slice
  rw [List.length_map, List.length_range]

@[simp] theorem slice_zero : slice b p 0 = [] := rfl

@[simp] theorem getElem_slice (h : i < (slice b p n).length) : (slice b p n)[i] = b (p + i) := by
  simp [slice]

theorem has_slice (b : Nat → α) (p n : Nat) : Has b p (slice b p n) := by
  intro j hj
  rw [getElem_slice]

theorem has_slice_iff : Has b p (slice b' q n) ↔ ∀ j < n, b (p + j) = b' (q + j) := by
  unfold Has
  simp only [length_slice, getElem_slice]

theorem slice_congr (h : ∀ j < n, b' (q + j) = b (p + j)) : slice b' q n = slice b p n :=
  List.map_congr_left fun j hj => h j (List.mem_range.mp hj)

theorem Has.eq_slice (h : Has b p xs) : xs = slice b p xs.length :=
  h.unique (has_slice b p _) length_slice.symm

theorem slice_add : slice b p (m + n) = slice b p m ++ slice b (p + m) n := by
  refine ((has_append.mpr ⟨has_slice b p m, ?_⟩).eq_slice.trans ?_).symm
  · rw [length_slice]
    exact has_slice b (p + m) n
  · simp

theorem slice_one : slice b p 1 = [b p] := rfl

end buffers
