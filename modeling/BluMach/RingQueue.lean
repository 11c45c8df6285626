-- Places of a ring: a queue holds the ones from its tail up to its head, and the head itself
-- stays free.
import Mathlib.Algebra.Group.Fin.Basic
import Mathlib.Data.List.Nodup
import Mathlib.Data.List.Range
import Mathlib.Algebra.GroupWithZero.Nat

namespace ring_queue

variable {n : Nat} [NeZero n]

/-- The places from one up to another, oldest first. -/
def between (tail head : Fin n) : List (Fin n) :=
  (List.range (head - tail).val).map (fun i => tail + Fin.ofNat n i)

theorem between_self (tail : Fin n) : between tail tail = [] := by
  unfold between
  rw [sub_self]
  rfl

theorem length_between (tail head : Fin n) : (between tail head).length = (head - tail).val := by
  unfold between
  rw [List.length_map, List.length_range]

/-- One more than a place that is not the last. -/
theorem val_add_one {d : Fin n} (h : d + 1 ≠ 0) : (d + 1).val = d.val + 1 := by
  have hd := d.isLt
  rcases Nat.lt_or_ge (d.val + 1) n with hlt | hge
  · rw [Fin.val_add, Fin.val_one', Nat.add_mod_mod, Nat.mod_eq_of_lt hlt]
  · refine absurd (Fin.ext ?_) h
    rw [Fin.val_add, Fin.val_one', Nat.add_mod_mod, show d.val + 1 = n by omega, Nat.mod_self]
    rfl

theorem ofNat_val (d : Fin n) : Fin.ofNat n d.val = d := Fin.ext (Nat.mod_eq_of_lt d.isLt)

theorem ofNat_succ (i : Nat) : Fin.ofNat n (i + 1) = 1 + Fin.ofNat n i := by
  apply Fin.ext
  rw [Fin.val_add, Fin.val_one']
  change (i + 1) % n = (1 % n + i % n) % n
  rw [← Nat.add_mod, Nat.add_comm]

/-- A place more at the head. -/
theorem between_push {tail head : Fin n} (h : head + 1 ≠ tail) :
    between tail (head + 1) = between tail head ++ [head] := by
  have hd : head + 1 - tail = head - tail + 1 := by rw [sub_add_eq_add_sub]
  have hne : head - tail + 1 ≠ 0 := by
    rw [← hd]
    exact fun h0 => h (sub_eq_zero.mp h0)
  unfold between
  rw [hd, val_add_one hne, List.range_succ, List.map_append, List.map_singleton, ofNat_val,
    add_sub_cancel]

/-- A place less at the tail. -/
theorem between_pop {tail head : Fin n} (h : head ≠ tail) :
    between tail head = tail :: between (tail + 1) head := by
  have hd : head - tail = head - (tail + 1) + 1 := by rw [sub_add_eq_sub_sub, sub_add_cancel]
  have hne : head - (tail + 1) + 1 ≠ 0 := by
    rw [← hd]
    exact fun h0 => h (sub_eq_zero.mp h0)
  have hstep : ∀ i : Nat, tail + Fin.ofNat n (i + 1) = tail + 1 + Fin.ofNat n i := by
    intro i
    rw [ofNat_succ, add_assoc]
  have hfirst : tail + Fin.ofNat n 0 = tail := add_zero tail
  unfold between
  rw [hd, val_add_one hne, List.range_succ_eq_map, List.map_cons, List.map_map, hfirst]
  exact congrArg _ (List.map_congr_left fun i _ => hstep i)

theorem head_not_mem (tail head : Fin n) : head ∉ between tail head := by
  intro h
  obtain ⟨i, hi, heq⟩ := List.mem_map.mp h
  rw [List.mem_range] at hi
  have hd : Fin.ofNat n i = head - tail := by rw [← heq, add_sub_cancel_left]
  have hval := congrArg Fin.val hd
  have hlt : i < n := by omega
  change i % n = _ at hval
  rw [Nat.mod_eq_of_lt hlt] at hval
  omega

theorem nodup_between (tail head : Fin n) : (between tail head).Nodup := by
  unfold between
  refine List.Nodup.map_on ?_ List.nodup_range
  intro i hi j hj heq
  rw [List.mem_range] at hi hj
  have hlt := (head - tail).isLt
  have hval := congrArg Fin.val (add_left_cancel heq)
  change i % n = j % n at hval
  rwa [Nat.mod_eq_of_lt (by omega), Nat.mod_eq_of_lt (by omega)] at hval

theorem tail_not_mem {tail head : Fin n} (h : head ≠ tail) : tail ∉ between (tail + 1) head := by
  have hnodup := nodup_between tail head
  rw [between_pop h] at hnodup
  exact (List.nodup_cons.mp hnodup).1

/-- A queue is full when all places but one are taken. -/
theorem full_iff (tail head : Fin n) : head + 1 = tail ↔ (between tail head).length + 1 = n := by
  rw [length_between]
  have hlt := (head - tail).isLt
  have hd : head + 1 - tail = head - tail + 1 := by rw [sub_add_eq_add_sub]
  constructor
  · intro h
    by_contra hne
    have hsum : (head - tail + 1).val = (head - tail).val + 1 := by
      rw [Fin.val_add, Fin.val_one', Nat.add_mod_mod, Nat.mod_eq_of_lt (by omega)]
    rw [← hd, h, sub_self] at hsum
    have hzero : (0 : Fin n).val = 0 := rfl
    omega
  · intro h
    have hzero : head - tail + 1 = 0 := by
      apply Fin.ext
      rw [Fin.val_add, Fin.val_one', Nat.add_mod_mod, h, Nat.mod_self]
      rfl
    rw [← hd] at hzero
    exact sub_eq_zero.mp hzero

/-! ## Places counted from the oldest

Here every place of the ring may be taken. -/

section

variable {n start : Nat}

/-- The place `i` behind the oldest. -/
def slot (n start i : Nat) : Nat := (start + i) % n

theorem slot_succ (i : Nat) : slot n ((start + 1) % n) i = slot n start (i + 1) := by
  unfold slot
  rw [Nat.mod_add_mod, Nat.add_assoc, Nat.add_comm 1 i]

/-- One round of the ring at most. -/
theorem slot_cases (hs : start < n) {i : Nat} (hi : i ≤ n) :
    (start + i < n ∧ slot n start i = start + i) ∨
      (n ≤ start + i ∧ slot n start i = start + i - n) := by
  unfold slot
  rcases Nat.lt_or_ge (start + i) n with hlt | hge
  · exact Or.inl ⟨hlt, Nat.mod_eq_of_lt hlt⟩
  · refine Or.inr ⟨hge, ?_⟩
    rw [Nat.mod_eq_sub_mod hge, Nat.mod_eq_of_lt (by omega)]

theorem slot_ne (hs : start < n) {i j : Nat} (hi : i < n) (hj : j < n) (h : i ≠ j) :
    slot n start i ≠ slot n start j := by
  rcases slot_cases hs (Nat.le_of_lt hi) with ⟨h1, h2⟩ | ⟨h1, h2⟩ <;>
    rcases slot_cases hs (Nat.le_of_lt hj) with ⟨h3, h4⟩ | ⟨h3, h4⟩ <;> omega

end

end ring_queue
