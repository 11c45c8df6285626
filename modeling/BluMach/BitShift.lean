-- Shifts and rotates by one place, for words of any width: what goes into the
-- word, what comes out of it, and when its sign changes.
import Mathlib.Data.BitVec
import Mathlib.Logic.Function.Iterate

namespace bit_shift

/-! ## One place -/

/-- The word one place up, with a new bit at its bottom. -/
def intoBottom {w : Nat} (b : Bool) (x : BitVec w) : BitVec w :=
  (x <<< 1) ||| (if b then BitVec.twoPow w 0 else 0)

/-- The word one place down, with a new bit at its top. -/
def intoTop {w : Nat} (b : Bool) (x : BitVec w) : BitVec w :=
  (x >>> 1) ||| (if b then BitVec.twoPow w (w - 1) else 0)

inductive Kind where
  | rol | ror | rcl | rcr | shl | shr | sar
deriving DecidableEq, Repr

/-- The word goes up. -/
def Kind.up : Kind → Bool
  | .rol | .rcl | .shl => true
  | .ror | .rcr | .shr | .sar => false

/-- A word, the bit that left it last, and whether its sign has just changed. -/
structure Shifted (w : Nat) where
  value : BitVec w
  carry : Bool
  changed : Bool
deriving DecidableEq, Repr

/-- The bit that leaves the word. -/
def Kind.out {w : Nat} (k : Kind) (x : BitVec w) : Bool :=
  if k.up then x.msb else x.getLsbD 0

/-- The bit that enters the word. -/
def Kind.into {w : Nat} (k : Kind) (x : BitVec w) (carry : Bool) : Bool :=
  match k with
  | .rol | .ror => k.out x
  | .rcl | .rcr => carry
  | .shl | .shr => false
  | .sar => x.msb

def Kind.moved {w : Nat} (k : Kind) (x : BitVec w) (carry : Bool) : BitVec w :=
  if k.up then intoBottom (k.into x carry) x else intoTop (k.into x carry) x

def Kind.step {w : Nat} (k : Kind) (s : Shifted w) : Shifted w where
  value := k.moved s.value s.carry
  carry := k.out s.value
  changed := s.value.msb ^^ (k.moved s.value s.carry).msb

/-- So many places. -/
def Kind.run {w : Nat} (k : Kind) (n : Nat) (s : Shifted w) : Shifted w := k.step^[n] s

/-! ## Bits -/

section

variable {w : Nat} {b : Bool} {x : BitVec w}

theorem getLsbD_bit (i j : Nat) :
    (if b then BitVec.twoPow w j else 0).getLsbD i = (b && decide (i < w) && decide (i = j)) := by
  cases b
  · simp
  · by_cases h : j = i
    · simp [h]
    · simp [h, Ne.symm h]

theorem getLsbD_intoBottom (i : Nat) :
    (intoBottom b x).getLsbD i = (decide (i < w) && if i = 0 then b else x.getLsbD (i - 1)) := by
  unfold intoBottom
  rw [BitVec.getLsbD_or, BitVec.getLsbD_shiftLeft, getLsbD_bit]
  rcases i with _ | i
  · simp [Bool.and_comm]
  · simp

theorem getLsbD_intoTop (i : Nat) :
    (intoTop b x).getLsbD i = if i + 1 = w then b else x.getLsbD (i + 1) := by
  unfold intoTop
  rw [BitVec.getLsbD_or, BitVec.getLsbD_ushiftRight, getLsbD_bit, Nat.add_comm 1 i]
  by_cases h : i + 1 = w
  · subst h
    simp
  · by_cases hi : i < w
    · simp [h, show ¬i = w - 1 by omega]
    · simp [h, hi]

theorem msb_intoTop (hw : 0 < w) : (intoTop b x).msb = b := by
  rw [BitVec.msb_eq_getLsbD_last, getLsbD_intoTop, if_pos (by omega)]

/-- The sign that was is next to the top. -/
theorem next_intoTop (hw : 1 < w) : (intoTop b x).getLsbD (w - 2) = x.msb := by
  rw [getLsbD_intoTop, if_neg (by omega), BitVec.msb_eq_getLsbD_last,
    show w - 2 + 1 = w - 1 by omega]

/-! ## Words in wider ones -/

/-- Upwards, what a wider word holds above does not matter. -/
theorem setWidth_up {m : Nat} (hw : 0 < w) (hm : w ≤ m) (y : BitVec m) :
    ((y <<< 1) ||| (if b then BitVec.twoPow m 0 else 0)).setWidth w =
      intoBottom b (y.setWidth w) := by
  apply BitVec.eq_of_getLsbD_eq
  intro i hi
  rw [BitVec.getLsbD_setWidth, getLsbD_intoBottom, BitVec.getLsbD_or, BitVec.getLsbD_shiftLeft,
    getLsbD_bit, BitVec.getLsbD_setWidth]
  rcases i with _ | i
  · simp [hw, show 0 < m by omega]
  · simp [hi, show i + 1 < m by omega, show i < w by omega]

/-- Downwards, a wider word with zeros above holds the word with the new bit. -/
theorem setWidth_down {m : Nat} (hw : 0 < w) (hm : w ≤ m) :
    ((x.setWidth m) >>> 1) ||| (if b then BitVec.twoPow m (w - 1) else 0) =
      (intoTop b x).setWidth m := by
  apply BitVec.eq_of_getLsbD_eq
  intro i hi
  rw [BitVec.getLsbD_or, BitVec.getLsbD_ushiftRight, getLsbD_bit, BitVec.getLsbD_setWidth,
    BitVec.getLsbD_setWidth, getLsbD_intoTop, Nat.add_comm 1 i]
  by_cases h : i + 1 = w
  · subst h
    simp [hi]
  · by_cases hlt : i < w
    · simp [h, hi, show ¬i = w - 1 by omega, show i + 1 < m by omega]
    · have hout : x.getLsbD (i + 1) = false := BitVec.getLsbD_of_ge _ _ (by omega)
      simp [h, hout, show ¬i = w - 1 by omega]

end

/-! ## Runs -/

section

variable {w : Nat} {k : Kind} {s : Shifted w}

theorem Kind.run_succ (n : Nat) : k.run (n + 1) s = k.step (k.run n s) :=
  Function.iterate_succ_apply' ..

/-- An arithmetic shift keeps the sign. -/
theorem sar_changed (hw : 0 < w) (n : Nat) : (Kind.sar.run (n + 1) s).changed = false := by
  rw [Kind.run_succ]
  change (_ ^^ (intoTop _ _).msb) = false
  rw [msb_intoTop hw]
  exact Bool.xor_self _

/-- A logical shift clears the sign at its first place, and has none to change after. -/
theorem shr_changed (hw : 0 < w) (n : Nat) :
    (Kind.shr.run (n + 1) s).changed = (decide (n = 0) && s.value.msb) := by
  have hstep : ∀ t : Shifted w, (Kind.shr.step t).changed = t.value.msb := fun t => by
    change (_ ^^ (intoTop false _).msb) = _
    rw [msb_intoTop hw, Bool.xor_false]
  rw [Kind.run_succ, hstep]
  cases n with
  | zero => rfl
  | succ n =>
    rw [Kind.run_succ]
    exact msb_intoTop hw

end

end bit_shift
