-- Numbers that stand in memory with their low byte first, and what a store of one does to the
-- bytes of the memory. Nothing here is about a particular memory.
import Mathlib.Data.BitVec

namespace little_endian

/-- Byte `i` of a number. -/
def byteAt (v i : Nat) : BitVec 8 := BitVec.ofNat 8 (v / 256 ^ i)

/-- The number in the `n` bytes from `o` on. -/
def peek (mem : Nat → BitVec 8) : Nat → Nat → Nat
  | _, 0 => 0
  | o, n + 1 => (mem o).toNat + 256 * peek mem (o + 1) n

/-- The memory with the `n` low bytes of `v` from `o` on. -/
def poke (n v o : Nat) (mem : Nat → BitVec 8) : Nat → BitVec 8 :=
  fun a => if o ≤ a ∧ a < o + n then byteAt v (a - o) else mem a

section

variable {mem : Nat → BitVec 8} {n v o a : Nat}

theorem byteAt_zero : byteAt v 0 = BitVec.ofNat 8 v := by
  unfold byteAt
  rw [pow_zero, Nat.div_one]

theorem byteAt_succ (i : Nat) : byteAt v (i + 1) = byteAt (v / 256) i := by
  unfold byteAt
  rw [Nat.pow_succ', Nat.div_div_eq_div_mul]

theorem poke_inside (h : o ≤ a) (h' : a < o + n) : poke n v o mem a = byteAt v (a - o) := by
  unfold poke
  rw [if_pos ⟨h, h'⟩]

theorem poke_outside (h : ¬(o ≤ a ∧ a < o + n)) : poke n v o mem a = mem a := by
  unfold poke
  rw [if_neg h]

/-- Each byte of a number that was read is the one in memory. -/
theorem byteAt_peek (mem : Nat → BitVec 8) (n o i : Nat) (h : i < n) :
    byteAt (peek mem o n) i = mem (o + i) := by
  induction n generalizing o i with
  | zero => omega
  | succ n ih =>
    have hlt := (mem o).isLt
    unfold peek
    cases i with
    | zero =>
      have hzero : o + 0 = o := rfl
      rw [byteAt_zero, hzero]
      apply BitVec.eq_of_toNat_eq
      rw [BitVec.toNat_ofNat]
      omega
    | succ i =>
      have hdiv : ((mem o).toNat + 256 * peek mem (o + 1) n) / 256 = peek mem (o + 1) n := by
        omega
      rw [byteAt_succ, hdiv, ih (o + 1) i (by omega)]
      congr 1
      omega

/-- To store what stands there changes nothing. -/
theorem poke_peek (h : peek mem o n = v) : poke n v o mem = mem := by
  funext a
  by_cases ha : o ≤ a ∧ a < o + n
  · rw [poke_inside ha.1 ha.2, ← h, byteAt_peek mem n o (a - o) (by omega)]
    congr 1
    omega
  · exact poke_outside ha

end

end little_endian
