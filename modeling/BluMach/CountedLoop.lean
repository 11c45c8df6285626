-- A loop whose counter is a word and whose bound is in the state: it tests the counter against
-- the bound, takes a turn and adds one. The test is inclusive, and the counter comes round.
import Mathlib.Data.BitVec
import Mathlib.Data.Nat.Find

namespace counted_loop

variable {σ : Type} {w : Nat} (bound : σ → BitVec w) (turn : BitVec w → σ → σ)

/-! ## The loop -/

/-- The loop from a counter, for at most so many tests. -/
def run : Nat → BitVec w → σ → Option σ
  | 0, _, _ => none
  | fuel + 1, i, s => if i ≤ bound s then run fuel (i + 1) (turn i s) else some s

/-- The state after the first `n` turns. -/
def after : Nat → σ → σ
  | 0, s => s
  | n + 1, s => turn (BitVec.ofNat w n) (after n s)

/-- The test fails after `n` turns. -/
def Stops (n : Nat) (s : σ) : Prop := ¬ BitVec.ofNat w n ≤ bound (after turn n s)

variable {bound turn}

theorem run_after (fuel n : Nat) (s : σ) :
    run bound turn (fuel + 1) (BitVec.ofNat w n) (after turn n s) =
      if BitVec.ofNat w n ≤ bound (after turn n s) then
        run bound turn fuel (BitVec.ofNat w (n + 1)) (after turn (n + 1) s)
      else some (after turn n s) := by
  rw [run, after, BitVec.ofNat_add]
  rfl

/-! ## The largest word -/

theorem le_allOnes (x : BitVec w) : x ≤ BitVec.allOnes w := by
  have := x.isLt
  rw [BitVec.le_def, BitVec.toNat_allOnes]
  omega

theorem ofNat_last : BitVec.ofNat w (2 ^ w - 1) = BitVec.allOnes w := by
  apply BitVec.eq_of_toNat_eq
  rw [BitVec.toNat_ofNat, BitVec.toNat_allOnes]
  exact Nat.mod_eq_of_lt (Nat.sub_lt (Nat.two_pow_pos w) Nat.one_pos)

/-! ## Where it ends -/

theorem run_of_stops {fuel m n : Nat} {s : σ} (hfuel : m < fuel)
    (hstop : Stops bound turn (n + m) s) (hgoes : ∀ k < m, ¬ Stops bound turn (n + k) s) :
    run bound turn fuel (BitVec.ofNat w n) (after turn n s) = some (after turn (n + m) s) := by
  induction m generalizing fuel n with
  | zero =>
    obtain ⟨fuel, rfl⟩ := Nat.exists_eq_succ_of_ne_zero (Nat.pos_iff_ne_zero.mp hfuel)
    rw [Nat.add_zero] at hstop
    rw [Nat.succ_eq_add_one, run_after, if_neg hstop, Nat.add_zero]
  | succ m ih =>
    obtain ⟨fuel, rfl⟩ := Nat.exists_eq_succ_of_ne_zero (Nat.ne_zero_of_lt hfuel)
    have hgo := not_not.mp (hgoes 0 (Nat.succ_pos m))
    rw [Nat.add_zero] at hgo
    rw [Nat.succ_eq_add_one, run_after, if_pos hgo,
      ih (Nat.lt_of_succ_lt_succ hfuel) (by rwa [Nat.add_right_comm, Nat.add_assoc]),
      Nat.add_right_comm, Nat.add_assoc]
    intro k hk
    rw [Nat.add_right_comm, Nat.add_assoc]
    exact hgoes (k + 1) (Nat.succ_lt_succ hk)

theorem run_of_goes {fuel n : Nat} {s : σ} (hgoes : ∀ k, ¬ Stops bound turn (n + k) s) :
    run bound turn fuel (BitVec.ofNat w n) (after turn n s) = none := by
  induction fuel generalizing n with
  | zero => rfl
  | succ fuel ih =>
    have hgo := not_not.mp (hgoes 0)
    rw [Nat.add_zero] at hgo
    rw [run_after, if_pos hgo]
    refine ih fun k => ?_
    rw [Nat.add_right_comm, Nat.add_assoc]
    exact hgoes (k + 1)

/-- A bound below the largest word stops the loop, before its counter comes round. -/
theorem exists_stops {s : σ} (hbound : ∀ n, bound (after turn n s) ≠ BitVec.allOnes w) :
    ∃ n < 2 ^ w, Stops bound turn n s := by
  refine ⟨2 ^ w - 1, Nat.sub_lt (Nat.two_pow_pos w) Nat.one_pos, fun hle => ?_⟩
  rw [ofNat_last] at hle
  exact hbound (2 ^ w - 1) (BitVec.le_antisymm (le_allOnes _) hle)

/-- The loop returns after its first `n` turns, where `n` is the first test that fails. -/
theorem returns {s : σ} (hbound : ∀ n, bound (after turn n s) ≠ BitVec.allOnes w) :
    ∃ n < 2 ^ w, run bound turn (2 ^ w) 0 s = some (after turn n s) := by
  classical
  have hex : ∃ n, Stops bound turn n s := by
    obtain ⟨n, -, hn⟩ := exists_stops hbound
    exact ⟨n, hn⟩
  have hlt : Nat.find hex < 2 ^ w := by
    obtain ⟨n, hlt, hn⟩ := exists_stops hbound
    exact Nat.lt_of_le_of_lt (Nat.find_min' hex hn) hlt
  refine ⟨Nat.find hex, hlt, ?_⟩
  have hrun :=
    run_of_stops (n := 0) hlt (by rw [Nat.zero_add]; exact Nat.find_spec hex)
      (fun k hk => by rw [Nat.zero_add]; exact Nat.find_min hex hk)
  rw [Nat.zero_add] at hrun
  exact hrun

/-! ## A bound that stays -/

/-- A bound that no turn changes gives one turn more than the bound. -/
theorem run_of_bound {s : σ} {b : BitVec w} (hbound : ∀ n, bound (after turn n s) = b)
    (hb : b ≠ BitVec.allOnes w) :
    run bound turn (2 ^ w) 0 s = some (after turn (b.toNat + 1) s) := by
  have hlt : b.toNat + 1 < 2 ^ w := by
    have hne : b.toNat ≠ 2 ^ w - 1 := fun h =>
      hb (BitVec.eq_of_toNat_eq (by rw [h, BitVec.toNat_allOnes]))
    have := b.isLt
    omega
  have hrun : run bound turn (2 ^ w) (BitVec.ofNat w 0) (after turn 0 s) =
      some (after turn (0 + (b.toNat + 1)) s) := by
    refine run_of_stops hlt ?_ fun k hk => ?_
    · unfold Stops
      rw [hbound, Nat.zero_add, BitVec.le_def, BitVec.toNat_ofNat, Nat.mod_eq_of_lt hlt]
      omega
    · unfold Stops
      rw [hbound, Nat.zero_add, BitVec.le_def, BitVec.toNat_ofNat, Nat.mod_eq_of_lt (by omega)]
      omega
  rw [Nat.zero_add] at hrun
  exact hrun

/-- Where the bound is the largest word, no test fails. -/
theorem run_of_allOnes {s : σ} (hbound : ∀ n, bound (after turn n s) = BitVec.allOnes w)
    (fuel : Nat) : run bound turn fuel 0 s = none := by
  refine run_of_goes (n := 0) fun k => not_not.mpr ?_
  rw [hbound]
  exact le_allOnes _

end counted_loop
