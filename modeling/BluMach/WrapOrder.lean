-- The order of words that wrap around: `a` comes before `b` when the signed
-- difference is not positive. It is an order on any window of half the range.
import Mathlib.Data.BitVec
import Mathlib.Tactic.Ring

namespace wrap_order

variable {w : Nat}

/-- `a` comes no later than `b`. -/
def Before (a b : BitVec w) : Prop := (a - b).toInt ≤ 0

instance (a b : BitVec w) : Decidable (Before a b) := by unfold Before; infer_instance

/-- The place of a word in the half range that starts at `base`. -/
def offset (base a : BitVec w) : Nat := (a - base).toNat

def InWindow (base a : BitVec w) : Prop := offset base a < 2 ^ (w - 1)

instance (base a : BitVec w) : Decidable (InWindow base a) := by unfold InWindow; infer_instance

/-- In a window the order is that of the places. -/
theorem before_iff (hw : 0 < w) {base a b : BitVec w} (ha : InWindow base a)
    (hb : InWindow base b) : Before a b ↔ offset base a ≤ offset base b := by
  unfold Before
  unfold InWindow at ha hb
  have hsub : a - b = (a - base) - (b - base) := by ring
  have h2 : 2 ^ w = 2 * 2 ^ (w - 1) := by
    rw [← Nat.pow_succ']; congr 1; omega
  rw [hsub, BitVec.toInt_eq_toNat_cond, BitVec.toNat_sub]
  unfold offset at *
  generalize (a - base).toNat = x at *
  generalize (b - base).toNat = y at *
  generalize 2 ^ (w - 1) = half at *
  rcases Nat.lt_or_ge x y with h | h
  · rw [Nat.mod_eq_of_lt (by omega)]
    split <;> omega
  · rw [show 2 ^ w - y + x = x - y + 2 ^ w by omega, Nat.add_mod_right,
      Nat.mod_eq_of_lt (by omega)]
    split <;> omega

/-- Two words moved by one amount keep their order. -/
theorem before_shift (a b c d : BitVec w) :
    Before (c + (a - d)) (c + (b - d)) ↔ Before a b := by
  unfold Before
  have h : c + (a - d) - (c + (b - d)) = a - b := by ring
  rw [h]

theorem before_self (a : BitVec w) : Before a a := by
  unfold Before
  rw [BitVec.sub_self]
  simp

end wrap_order
