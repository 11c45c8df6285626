-- Places counted by cylinder, head and sector, as an odometer counts, and by one number.
import Mathlib.Data.Nat.Notation
import Mathlib.Algebra.Order.Ring.Nat
import Mathlib.Logic.Function.Iterate
import Mathlib.Tactic.Ring
import Mathlib.Tactic.SplitIfs

namespace odometer

structure Place where
  cylinder : Nat
  head : Nat
  sector : Nat
  deriving DecidableEq

variable (heads sectors : Nat)

/-- The number of a place. -/
def linear (p : Place) : Nat := (p.cylinder * heads + p.head) * sectors + p.sector

/-- The head and the sector are below their bounds. -/
def Valid (p : Place) : Prop := p.head < heads ∧ p.sector < sectors

/-- The place after another. -/
def advance (p : Place) : Place :=
  if p.sector + 1 < sectors then { p with sector := p.sector + 1 }
  else if p.head + 1 < heads then ⟨p.cylinder, p.head + 1, 0⟩
  else ⟨p.cylinder + 1, 0, 0⟩

variable {heads sectors} {p : Place}

theorem valid_advance (h : Valid heads sectors p) :
    Valid heads sectors (advance heads sectors p) := by
  obtain ⟨hhead, hsector⟩ := h
  unfold advance Valid
  split_ifs with hs hh
  · exact ⟨hhead, hs⟩
  · exact ⟨hh, Nat.zero_lt_of_lt hsector⟩
  · exact ⟨Nat.zero_lt_of_lt hhead, Nat.zero_lt_of_lt hsector⟩

/-- An odometer counts by one. -/
theorem linear_advance (h : Valid heads sectors p) :
    linear heads sectors (advance heads sectors p) = linear heads sectors p + 1 := by
  obtain ⟨hhead, hsector⟩ := h
  unfold advance linear
  split_ifs with hs hh
  · rfl
  · have hlast : sectors = p.sector + 1 := by omega
    calc (p.cylinder * heads + (p.head + 1)) * sectors + 0
        = (p.cylinder * heads + p.head) * sectors + sectors := by ring
      _ = (p.cylinder * heads + p.head) * sectors + p.sector + 1 := by omega
  · have hlast : sectors = p.sector + 1 := by omega
    have htop : heads = p.head + 1 := by omega
    calc ((p.cylinder + 1) * heads + 0) * sectors + 0
        = (p.cylinder * heads + heads) * sectors := by ring
      _ = (p.cylinder * heads + (p.head + 1)) * sectors := by rw [← htop]
      _ = (p.cylinder * heads + p.head) * sectors + sectors := by ring
      _ = (p.cylinder * heads + p.head) * sectors + p.sector + 1 := by omega

/-- The places before a cylinder are the ones with the smaller numbers. -/
theorem linear_lt_iff (h : Valid heads sectors p) (cylinders : Nat) :
    linear heads sectors p < cylinders * heads * sectors ↔ p.cylinder < cylinders := by
  obtain ⟨hhead, hsector⟩ := h
  unfold linear
  constructor
  · intro hlt
    by_contra hge
    have hle : cylinders * heads * sectors ≤ (p.cylinder * heads + p.head) * sectors :=
      Nat.mul_le_mul_right _ ((Nat.mul_le_mul_right _ (Nat.le_of_not_lt hge)).trans
        (Nat.le_add_right _ _))
    omega
  · intro hlt
    have hnext : p.cylinder * heads + p.head + 1 ≤ cylinders * heads :=
      calc p.cylinder * heads + p.head + 1 ≤ p.cylinder * heads + heads := by omega
        _ = (p.cylinder + 1) * heads := by ring
        _ ≤ cylinders * heads := Nat.mul_le_mul_right _ hlt
    calc (p.cylinder * heads + p.head) * sectors + p.sector
        < (p.cylinder * heads + p.head) * sectors + sectors := by omega
      _ = (p.cylinder * heads + p.head + 1) * sectors := by ring
      _ ≤ cylinders * heads * sectors := Nat.mul_le_mul_right _ hnext

/-- The parts of a place from its number. -/
theorem sector_of_linear (h : Valid heads sectors p) :
    linear heads sectors p % sectors = p.sector := Nat.mul_add_mod_of_lt h.2

theorem track_of_linear (h : Valid heads sectors p) :
    linear heads sectors p / sectors = p.cylinder * heads + p.head := by
  unfold linear
  rw [Nat.mul_comm _ sectors, Nat.mul_add_div (Nat.zero_lt_of_lt h.2), Nat.div_eq_of_lt h.2,
    Nat.add_zero]

theorem head_of_linear (h : Valid heads sectors p) :
    linear heads sectors p / sectors % heads = p.head := by
  rw [track_of_linear h]
  exact Nat.mul_add_mod_of_lt h.1

theorem cylinder_of_linear (h : Valid heads sectors p) :
    linear heads sectors p / sectors / heads = p.cylinder := by
  rw [track_of_linear h, Nat.mul_comm, Nat.mul_add_div (Nat.zero_lt_of_lt h.1),
    Nat.div_eq_of_lt h.1, Nat.add_zero]

/-! ## So many places on -/

theorem valid_iterate (h : Valid heads sectors p) (k : Nat) :
    Valid heads sectors ((advance heads sectors)^[k] p) := by
  induction k generalizing p with
  | zero => exact h
  | succ k ih => exact ih (valid_advance h)

theorem linear_iterate (h : Valid heads sectors p) (k : Nat) :
    linear heads sectors ((advance heads sectors)^[k] p) = linear heads sectors p + k := by
  induction k generalizing p with
  | zero => rfl
  | succ k ih =>
    rw [Function.iterate_succ_apply, ih (valid_advance h), linear_advance h]
    omega

/-- A counter that follows an odometer from one place to the next, short of some cylinder, follows
it from any place as far as the odometer stays short of that cylinder. -/
theorem lockstep {σ : Type*} {next : σ → σ} {At : σ → Place → Prop} {cylinders : Nat}
    (hstep : ∀ s p, Valid heads sectors p → p.cylinder < cylinders →
      (advance heads sectors p).cylinder < cylinders → At s p →
      At (next s) (advance heads sectors p))
    {s : σ} (h : Valid heads sectors p) (hat : At s p) {k : Nat}
    (hk : linear heads sectors p + k < cylinders * heads * sectors) :
    At (next^[k] s) ((advance heads sectors)^[k] p) := by
  induction k with
  | zero => exact hat
  | succ k ih =>
    have hvalid := valid_iterate h k
    have hlast := linear_iterate h k
    have hnext := linear_iterate h (k + 1)
    rw [Function.iterate_succ_apply'] at hnext
    rw [Function.iterate_succ_apply', Function.iterate_succ_apply']
    refine hstep _ _ hvalid ((linear_lt_iff hvalid cylinders).mp (by omega))
      ((linear_lt_iff (valid_advance hvalid) cylinders).mp (by omega)) (ih (by omega))

/-- Numbers that go up by one until they first go astray are right for as many as come before. -/
theorem counted_iff {a : Nat → Nat} {m : Nat} (hbelow : ∀ k < m, a k = a 0 + k)
    (hat : a m ≠ a 0 + m) (n : Nat) : (∀ k < n, a k = a 0 + k) ↔ n ≤ m := by
  constructor
  · intro h
    by_contra hlt
    exact hat (h m (by omega))
  · intro hle k hk
    exact hbelow k (by omega)

end odometer
