-- The laws of the 808x multiplication: its loop is shifts and additions, but for a carry that an
-- ADC has left in the state, and the sign is taken off before it and put back after it.
import BluMach.Cpu808xLaws
import BluMach.Cpu808xMulDiv
import BluMach.ShiftAdd
import BluMach.SignedWords

namespace blumach.cpu_808x

open arith_flags x86_flags signed_words

/-! ## Words in 16 bits -/

section

variable (word : Bool) (x : BitVec 16)

theorem and_sizeMask : (x &&& sizeMask (sizeBits word)).toNat = x.toNat % 2 ^ sizeBits word := by
  rw [BitVec.toNat_and]
  cases word
  · exact Nat.and_two_pow_sub_one_eq_mod x.toNat 8
  · exact Nat.and_two_pow_sub_one_eq_mod x.toNat 16

theorem top_bit_toNat :
    top_bit x (sizeBits word) = decide (x.toNat / 2 ^ (sizeBits word - 1) % 2 = 1) := by
  rw [top_bit, isSet_twoPow]
  exact Nat.testBit_eq_decide_div_mod_eq

theorem low_bit_toNat : isSet (x &&& 1) = decide (x.toNat % 2 = 1) := by
  rw [show (1 : BitVec 16) = BitVec.twoPow 16 0 from rfl, isSet_twoPow]
  exact Nat.testBit_zero ..

theorem low_toNat_bit : (isSet (x &&& 1)).toNat = x.toNat % 2 := by
  rw [low_bit_toNat]
  rcases Nat.mod_two_eq_zero_or_one x.toNat with h0 | h1
  · rw [h0]
    rfl
  · rw [h1]
    rfl

theorem high_bit_toNat : (high_bit (sizeBits word)).toNat = 2 ^ (sizeBits word - 1) := by
  cases word <;> rfl

theorem two_pow_size : 2 ^ sizeBits word = 2 * 2 ^ (sizeBits word - 1) ∧
    2 ^ (sizeBits word - 1) ≤ 2 ^ 15 := by
  cases word <;> decide

end

/-! ## The loop of the multiplication -/

/-- The two registers and the carry as one number. -/
def MulLoop.value (word : Bool) (m : MulLoop) : Nat :=
  2 * (m.c.toNat * 2 ^ sizeBits word + m.a.toNat) + m.carry.toNat

/-- The registers are as wide as the operands. -/
structure Fits (word : Bool) (m : MulLoop) : Prop where
  c : m.c.toNat < 2 ^ sizeBits word
  a : m.a.toNat < 2 ^ sizeBits word

/-- The adder takes a carry that an ADC has left for its own, and 0 for the last of the numbers
with it. -/
def MulLoop.mistaken (m : MulLoop) : Bool := m.carry && bumpedFor 2 m.st && decide (m.c = 0)

section

variable {word : Bool} {m : MulLoop} (b : BitVec 16)

theorem low_toNat (x : BitVec 16) :
    (low word (x.setWidth 32)).toNat = x.toNat % 2 ^ sizeBits word := by
  have hbits := sizeBits_bounds word
  have hpow : 2 ^ sizeBits word ∣ 2 ^ 32 := Nat.pow_dvd_pow 2 (by omega)
  rw [low, BitVec.toNat_setWidth, BitVec.toNat_setWidth, Nat.mod_mod_of_dvd _ hpow]

/-- A sum whose carry in has been put into one of the numbers: 0 stands for the number that had no
room for it. -/
theorem sum_taken_back {size c src : Nat} (x : Nat) {lent : Bool} (hsrc : src < size)
    (h : c = (src + lent.toNat) % size) :
    (if size ≤ x + src + lent.toNat then x + src + lent.toNat - size else x + src + lent.toNat) +
        (decide (size ≤ x + src + lent.toNat)).toNat * size =
      c + x + (lent && decide (c = 0)).toNat * size := by
  have hsum : (if size ≤ x + src + lent.toNat then x + src + lent.toNat - size
      else x + src + lent.toNat) + (decide (size ≤ x + src + lent.toNat)).toNat * size =
      x + src + lent.toNat := by
    split_ifs with hle
    · rw [decide_eq_true hle, Bool.toNat_true, Nat.one_mul]
      omega
    · rw [decide_eq_false hle, Bool.toNat_false, Nat.zero_mul, Nat.add_zero]
  rw [hsum, h]
  cases lent with
  | false =>
    rw [Bool.toNat_false, Nat.add_zero, Nat.add_zero, Nat.mod_eq_of_lt hsrc, Bool.false_and,
      Bool.toNat_false]
    omega
  | true =>
    rw [Bool.toNat_true, Bool.true_and]
    by_cases hlast : src + 1 = size
    · rw [hlast, Nat.mod_self, decide_eq_true rfl, Bool.toNat_true]
      omega
    · rw [Nat.mod_eq_of_lt (by omega), decide_eq_false (Nat.succ_ne_zero src), Bool.toNat_false]
      omega

/-- The adder on two words: the sum, and its carry. -/
theorem add_words (st : Cpu) {c : BitVec 16} (hc : c.toNat < 2 ^ sizeBits word) :
    let st' := add (sizeBits word) { st with
      cpu_src := c.setWidth 32, cpu_dest := b.setWidth 32 }
    st'.cpu_data.toNat % 2 ^ sizeBits word + st'.carry.toNat * 2 ^ sizeBits word =
      c.toNat + b.toNat % 2 ^ sizeBits word +
        (bumpedFor 2 st && decide (c = 0)).toNat * 2 ^ sizeBits word := by
  intro st'
  have hspec := add_spec word { st with cpu_src := c.setWidth 32, cpu_dest := b.setWidth 32 }
  have hlent := low_takeBack word { st with
    cpu_src := c.setWidth 32, cpu_dest := b.setWidth 32 } 2
  rw [show bumpedFor 2 { st with cpu_src := c.setWidth 32, cpu_dest := b.setWidth 32 } =
    bumpedFor 2 st from rfl] at hspec hlent
  generalize takeBack 2 { st with
    cpu_src := c.setWidth 32, cpu_dest := b.setWidth 32 } = taken at hspec hlent
  obtain ⟨hdata, hflags⟩ := hspec
  have hsrc := congrArg BitVec.toNat hlent
  simp only [low_toNat, bumped, BitVec.toNat_ofNat, Nat.mod_eq_of_lt hc] at hsrc
  have hzero : decide (c = 0) = decide (c.toNat = 0) := by
    rw [decide_eq_decide, ← BitVec.toNat_inj]
    rfl
  have hcarry : st'.carry = (stored st'.flags).c := by
    rw [stored_bits]
    exact isSet_C_FLAG st'.flags
  have hsum := congrArg BitVec.toNat hdata
  rw [addResult_toNat, low_toNat] at hsum
  rw [hcarry, hflags, hzero]
  simp only [addFlags, low_toNat]
  rw [← sum_taken_back _ (low word taken.cpu_src).isLt hsrc]
  exact congrArg (· + _) ((BitVec.toNat_setWidth ..).symm.trans hsum)

/-- The addition, with the bit that does not fit. -/
theorem mulAdd_spec (h : Fits word m) :
    let m' := mulAdd (sizeBits word) b m
    Fits word m' ∧ m'.a = m.a ∧
      m'.c.toNat + m'.carry.toNat * 2 ^ sizeBits word =
        m.c.toNat + m.carry.toNat * (b.toNat % 2 ^ sizeBits word) +
          m.mistaken.toNat * 2 ^ sizeBits word := by
  intro m'
  cases hcarry : m.carry with
  | false =>
    have hsame : m' = m := by
      change mulAdd (sizeBits word) b m = m
      rw [mulAdd, hcarry]
      rfl
    rw [hsame, MulLoop.mistaken, hcarry]
    refine ⟨h, rfl, ?_⟩
    simp only [Bool.false_and, Bool.toNat_false, Nat.zero_mul, Nat.add_zero]
  | true =>
    have hadd := add_words b m.st h.c
    have hbits := sizeBits_bounds word
    generalize hst : add (sizeBits word) { m.st with
      cpu_src := m.c.setWidth 32, cpu_dest := b.setWidth 32 } = st at hadd
    have hm' : m' = { m with
        st := st
        c := st.cpu_data.setWidth 16 &&& sizeMask (sizeBits word)
        carry := st.carry } := by
      change mulAdd (sizeBits word) b m = _
      rw [mulAdd, hcarry, ← hst]
      rfl
    have hpow : 2 ^ sizeBits word ∣ 2 ^ 16 := Nat.pow_dvd_pow 2 (by omega)
    have hc : m'.c.toNat = st.cpu_data.toNat % 2 ^ sizeBits word := by
      rw [hm', and_sizeMask, BitVec.toNat_setWidth, Nat.mod_mod_of_dvd _ hpow]
    refine ⟨⟨?_, ?_⟩, ?_, ?_⟩
    · rw [hc]
      exact Nat.mod_lt _ (Nat.two_pow_pos _)
    · rw [hm']
      exact h.a
    · rw [hm']
    · rw [hc, MulLoop.mistaken, hcarry, Bool.true_and, Bool.toNat_true, Nat.one_mul, ← hadd, hm']

/-- The three are one number, and the shift only moves its parts. -/
theorem mulShift_spec (h : Fits word m) :
    Fits word (mulShift (sizeBits word) m) ∧
      (mulShift (sizeBits word) m).value word =
        (m.c.toNat + m.carry.toNat * 2 ^ sizeBits word) * 2 ^ sizeBits word + m.a.toNat ∧
      (mulShift (sizeBits word) m).c.toNat =
        m.c.toNat / 2 + m.carry.toNat * 2 ^ (sizeBits word - 1) := by
  obtain ⟨hsize, hle⟩ := two_pow_size word
  have hshift (x : BitVec 16) (hx : x.toNat < 2 ^ sizeBits word) (into : Bool) :
      (x >>> 1 + (if into then high_bit (sizeBits word) else 0)).toNat =
        x.toNat / 2 + into.toNat * 2 ^ (sizeBits word - 1) := by
    have hinto : (if into then high_bit (sizeBits word) else 0).toNat =
        into.toNat * 2 ^ (sizeBits word - 1) := by
      cases into
      · exact (Nat.zero_mul _).symm
      · exact (high_bit_toNat word).trans (Nat.one_mul _).symm
    have hone := Bool.toNat_le into
    have hbound : into.toNat * 2 ^ (sizeBits word - 1) ≤ 2 ^ (sizeBits word - 1) := by
      calc into.toNat * 2 ^ (sizeBits word - 1) ≤ 1 * 2 ^ (sizeBits word - 1) :=
            Nat.mul_le_mul_right _ hone
        _ = 2 ^ (sizeBits word - 1) := Nat.one_mul _
    rw [BitVec.toNat_add, hinto, BitVec.toNat_ushiftRight, Nat.shiftRight_one,
      Nat.mod_eq_of_lt (by omega)]
  have hc := hshift m.c h.c m.carry
  have ha := hshift m.a h.a (isSet (m.c &&& 1))
  rw [low_toNat_bit] at ha
  have hcarry := Bool.toNat_le m.carry
  have hcbound : m.carry.toNat * 2 ^ (sizeBits word - 1) ≤ 1 * 2 ^ (sizeBits word - 1) :=
    Nat.mul_le_mul_right _ hcarry
  have habound : m.c.toNat % 2 * 2 ^ (sizeBits word - 1) ≤ 1 * 2 ^ (sizeBits word - 1) :=
    Nat.mul_le_mul_right _ (by omega)
  have hcfits := h.c
  have hafits := h.a
  refine ⟨⟨?_, ?_⟩, ?_, hc⟩
  · change (m.c >>> 1 + _).toNat < _
    rw [hc]
    omega
  · change (m.a >>> 1 + _).toNat < _
    rw [ha]
    omega
  · unfold MulLoop.value mulShift
    simp only [hc, ha, low_toNat_bit]
    rw [hsize]
    generalize 2 ^ (sizeBits word - 1) = half
    have hcsplit := Nat.div_add_mod m.c.toNat 2
    have hasplit := Nat.div_add_mod m.a.toNat 2
    calc 2 * ((m.c.toNat / 2 + m.carry.toNat * half) * (2 * half) +
            (m.a.toNat / 2 + m.c.toNat % 2 * half)) + m.a.toNat % 2
        = ((2 * (m.c.toNat / 2) + m.c.toNat % 2) + m.carry.toNat * (2 * half)) * (2 * half) +
            (2 * (m.a.toNat / 2) + m.a.toNat % 2) := by ring
      _ = (m.c.toNat + m.carry.toNat * (2 * half)) * (2 * half) + m.a.toNat := by
          rw [hcsplit, hasplit]

/-- A turn of the loop is a turn of the shifts and additions, but for a carry that it mistakes. -/
theorem mulTurn_spec (h : Fits word m) :
    Fits word (mulTurn (sizeBits word) b m) ∧
      (mulTurn (sizeBits word) b m).value word =
        shift_add.turn (sizeBits word) (b.toNat % 2 ^ sizeBits word) (m.value word) +
          m.mistaken.toNat * 2 ^ (2 * sizeBits word) := by
  obtain ⟨hfits, ha, hsum⟩ := mulAdd_spec b h
  obtain ⟨hshifted, hvalue, -⟩ := mulShift_spec hfits
  refine ⟨hshifted, hvalue.trans ?_⟩
  rw [hsum, ha]
  have hhalf : m.value word / 2 = m.c.toNat * 2 ^ sizeBits word + m.a.toNat := by
    unfold MulLoop.value
    have := Bool.toNat_le m.carry
    omega
  have hdigit : m.value word % 2 = m.carry.toNat := by
    unfold MulLoop.value
    have := Bool.toNat_le m.carry
    omega
  rw [shift_add.turn, hhalf, hdigit, Nat.two_mul, Nat.pow_add]
  ring

theorem mulAdd_none (bits : Nat) (h : m.carry = false) : mulAdd bits b m = m := by
  rw [mulAdd, h]
  rfl

theorem mulAdd_carry (bits : Nat) (h : m.carry = true) :
    (mulAdd bits b m).carry = (mulAdd bits b m).st.carry := by
  rw [mulAdd, h]
  rfl

/-- What holds after `k` turns of the loop that begins with `x` in the state `st`. A carry that is
mistaken is the one of the first addition, and is left in the product. -/
structure Multiplied (word : Bool) (b : BitVec 16) (x : Nat) (st : Cpu) (k : Nat) (m : MulLoop) :
    Prop where
  fits : Fits word m
  value : ∃ extra, m.value word =
      (shift_add.turn (sizeBits word) (b.toNat % 2 ^ sizeBits word))^[k] x +
        2 ^ (2 * sizeBits word + 1 - k) * extra ∧
    (extra ≠ 0 ↔ bumpedFor 2 st = true ∧ x % 2 ^ k ≠ 0)
  untouched : x % 2 ^ k = 0 → m.st = st ∧ m.c = 0
  carried : x % 2 ^ k ≠ 0 → bumpedFor 2 m.st = true → 2 ^ (sizeBits word - k) ≤ m.c.toNat

variable {b} {x k : Nat} {st : Cpu}

/-- The bit that decides about the addition. -/
theorem Multiplied.carry (h : Multiplied word b x st k m) (hk : k < sizeBits word) :
    m.carry.toNat = x / 2 ^ k % 2 := by
  obtain ⟨extra, hvalue, -⟩ := h.value
  have hpow : 2 ^ (2 * sizeBits word + 1 - k) = 2 * 2 ^ (2 * sizeBits word - k) := by
    rw [show 2 * sizeBits word + 1 - k = 2 * sizeBits word - k + 1 by omega, Nat.pow_succ,
      Nat.mul_comm]
  have hdigit : m.value word % 2 = m.carry.toNat := by
    unfold MulLoop.value
    have := Bool.toNat_le m.carry
    omega
  rw [← hdigit, hvalue, hpow, Nat.mul_assoc, Nat.add_mul_mod_self_left,
    shift_add.turns_digit _ _ _ hk.le]

/-- The first addition mistakes the carry that was left, and no other one does. -/
theorem Multiplied.mistaken (h : Multiplied word b x st k m) (hcarry : m.carry = true) :
    m.mistaken = (bumpedFor 2 st && decide (x % 2 ^ k = 0)) := by
  unfold MulLoop.mistaken
  rw [hcarry, Bool.true_and]
  by_cases hfirst : x % 2 ^ k = 0
  · obtain ⟨hst, hc⟩ := h.untouched hfirst
    rw [hst, hc, decide_eq_true hfirst]
    rfl
  · rw [decide_eq_false hfirst, Bool.and_false, Bool.and_eq_false_imp]
    intro hbumped
    have hpos := Nat.two_pow_pos (sizeBits word - k)
    have hle := h.carried hfirst hbumped
    rw [decide_eq_false_iff_not]
    intro hzero
    rw [hzero] at hle
    exact absurd hle (Nat.not_le.mpr hpos)

theorem Multiplied.turn (h : Multiplied word b x st k m) (hk : k < sizeBits word) :
    Multiplied word b x st (k + 1) (mulTurn (sizeBits word) b m) := by
  obtain ⟨hfits, hvalue⟩ := mulTurn_spec b h.fits
  obtain ⟨extra, hbefore, hextra⟩ := h.value
  have hdigit := h.carry hk
  have hmod : x % 2 ^ (k + 1) = x % 2 ^ k + 2 ^ k * (x / 2 ^ k % 2) := Nat.mod_pow_succ
  have hpow : 2 ^ (2 * sizeBits word + 1 - k) = 2 * 2 ^ (2 * sizeBits word - k) := by
    rw [show 2 * sizeBits word + 1 - k = 2 * sizeBits word - k + 1 by omega, Nat.pow_succ,
      Nat.mul_comm]
  have hsplit : 2 ^ (2 * sizeBits word) = 2 ^ (2 * sizeBits word - k) * 2 ^ k := by
    rw [← Nat.pow_add]
    congr 1
    omega
  have hhalf : 2 ^ (sizeBits word - k) = 2 * 2 ^ (sizeBits word - (k + 1)) := by
    rw [show sizeBits word - k = sizeBits word - (k + 1) + 1 by omega, Nat.pow_succ, Nat.mul_comm]
  have hone := Nat.two_pow_pos k
  rw [← hdigit] at hmod
  have hafter : (mulTurn (sizeBits word) b m).value word =
      (shift_add.turn (sizeBits word) (b.toNat % 2 ^ sizeBits word))^[k + 1] x +
        2 ^ (2 * sizeBits word + 1 - (k + 1)) * (extra + 2 ^ k * m.mistaken.toNat) := by
    rw [hvalue, hbefore, hpow, Nat.mul_assoc, shift_add.turn_add, Function.iterate_succ_apply',
      hsplit, show 2 * sizeBits word + 1 - (k + 1) = 2 * sizeBits word - k by omega]
    ring
  cases hcarry : m.carry with
  | false =>
    rw [hcarry, Bool.toNat_false, Nat.mul_zero, Nat.add_zero] at hmod
    have hnone : m.mistaken = false := by
      rw [MulLoop.mistaken, hcarry, Bool.false_and, Bool.false_and]
    obtain ⟨-, -, hc⟩ := mulShift_spec h.fits
    rw [hcarry, Bool.toNat_false, Nat.zero_mul, Nat.add_zero] at hc
    have hturn : mulTurn (sizeBits word) b m = mulShift (sizeBits word) m := by
      rw [mulTurn, mulAdd_none b _ hcarry]
    refine ⟨hfits, ⟨_, hafter, ?_⟩, ?_, ?_⟩
    · rw [hnone, Bool.toNat_false, Nat.mul_zero, Nat.add_zero, hmod]
      exact hextra
    · intro hzero
      obtain ⟨hst, hczero⟩ := h.untouched (hmod.symm.trans hzero)
      rw [hturn]
      refine ⟨hst, BitVec.eq_of_toNat_eq ?_⟩
      rw [hc, hczero]
      rfl
    · intro hnonzero hbumped
      rw [hturn] at hbumped ⊢
      have hle := h.carried (by rwa [hmod] at hnonzero) hbumped
      rw [hc]
      omega
  | true =>
    rw [hcarry, Bool.toNat_true, Nat.mul_one] at hmod
    have hnonzero : x % 2 ^ (k + 1) ≠ 0 := by omega
    refine ⟨hfits, ⟨_, hafter, ?_⟩, fun hzero => absurd hzero hnonzero, ?_⟩
    · rw [h.mistaken hcarry]
      by_cases hfirst : x % 2 ^ k = 0
      · have hextrazero : extra = 0 := by
          by_contra hne
          exact (hextra.mp hne).2 hfirst
        rw [decide_eq_true hfirst, Bool.and_true, hextrazero, Nat.zero_add]
        cases bumpedFor 2 st with
        | false =>
          simp only [Bool.toNat_false, Nat.mul_zero, ne_eq, not_true, Bool.false_eq_true, false_and]
        | true =>
          rw [Bool.toNat_true, Nat.mul_one]
          exact ⟨fun _ => ⟨rfl, hnonzero⟩, fun _ => hone.ne'⟩
      · rw [decide_eq_false hfirst, Bool.and_false, Bool.toNat_false, Nat.mul_zero, Nat.add_zero]
        exact hextra.trans ⟨fun hc => ⟨hc.1, hnonzero⟩, fun hc => ⟨hc.1, hfirst⟩⟩
    · intro _ hbumped
      obtain ⟨haddfits, -, -⟩ := mulAdd_spec b h.fits
      obtain ⟨-, -, hc⟩ := mulShift_spec haddfits
      have hset : (mulAdd (sizeBits word) b m).carry = true := by
        rw [mulAdd_carry b _ hcarry]
        exact (of_decide_eq_true hbumped).2
      rw [hset, Bool.toNat_true, Nat.one_mul] at hc
      have hle : 2 ^ (sizeBits word - (k + 1)) ≤ 2 ^ (sizeBits word - 1) :=
        Nat.pow_le_pow_right (by decide) (by omega)
      change 2 ^ (sizeBits word - (k + 1)) ≤ (mulShift _ (mulAdd _ b m)).c.toNat
      rw [hc]
      omega

/-- The loop begins with the number that is multiplied. -/
theorem multiplied_start (a : BitVec 16) (ha : a.toNat < 2 ^ sizeBits word) (st : Cpu) :
    Multiplied word b a.toNat st 0 ⟨st, 0, a >>> 1, isSet (a &&& 1)⟩ := by
  refine ⟨⟨Nat.two_pow_pos _, ?_⟩, ⟨0, ?_, ?_⟩, fun _ => ⟨rfl, rfl⟩, ?_⟩
  · change (a >>> 1).toNat < _
    rw [BitVec.toNat_ushiftRight, Nat.shiftRight_one]
    omega
  · change 2 * ((0 : BitVec 16).toNat * _ + (a >>> 1).toNat) + (isSet (a &&& 1)).toNat = _
    rw [low_toNat_bit, BitVec.toNat_ushiftRight, Nat.shiftRight_one, Nat.mul_zero, Nat.add_zero,
      Function.iterate_zero_apply, show (0 : BitVec 16).toNat = 0 from rfl]
    omega
  · rw [Nat.pow_zero, Nat.mod_one]
    simp only [ne_eq, not_true, and_false]
  · intro h
    rw [Nat.pow_zero, Nat.mod_one] at h
    exact absurd rfl h

theorem multiplied_turns (a : BitVec 16) (ha : a.toNat < 2 ^ sizeBits word) (st : Cpu)
    (hk : k ≤ sizeBits word) :
    Multiplied word b a.toNat st k
      ((mulTurn (sizeBits word) b)^[k] ⟨st, 0, a >>> 1, isSet (a &&& 1)⟩) := by
  induction k with
  | zero => exact multiplied_start a ha st
  | succ k ih =>
    rw [Function.iterate_succ_apply']
    exact (ih (by omega)).turn hk

/-- After the loop the two registers hold the product, and a carry that was mistaken. -/
theorem mul_loop (a : BitVec 16) (ha : a.toNat < 2 ^ sizeBits word) (st : Cpu) :
    let m := (mulTurn (sizeBits word) b)^[sizeBits word] ⟨st, 0, a >>> 1, isSet (a &&& 1)⟩
    Fits word m ∧ ∃ extra,
      m.c.toNat * 2 ^ sizeBits word + m.a.toNat =
          a.toNat * (b.toNat % 2 ^ sizeBits word) + 2 ^ sizeBits word * extra ∧
        (extra ≠ 0 ↔ bumpedFor 2 st = true ∧ a.toNat ≠ 0) := by
  intro m
  have h : Multiplied word b a.toNat st (sizeBits word) m :=
    multiplied_turns a ha st (Nat.le_refl _)
  obtain ⟨extra, hvalue, hextra⟩ := h.value
  have hpow : 2 ^ (2 * sizeBits word + 1 - sizeBits word) = 2 * 2 ^ sizeBits word := by
    rw [show 2 * sizeBits word + 1 - sizeBits word = sizeBits word + 1 by omega, Nat.pow_succ,
      Nat.mul_comm]
  rw [shift_add.turns_all ha, hpow, Nat.mul_assoc, MulLoop.value] at hvalue
  rw [Nat.mod_eq_of_lt ha] at hextra
  have hcarry := Bool.toNat_le m.carry
  exact ⟨h.fits, extra, by omega, hextra⟩

end

/-! ## The multiplication -/

section

variable {word : Bool} (x : BitVec 16)

theorem not_add_one_toNat : (~~~x + 1).toNat = (2 ^ 16 - x.toNat) % 2 ^ 16 := by
  rw [show ~~~x + 1 = -x from (BitVec.neg_eq_not_add x).symm, BitVec.toNat_neg]

/-- A complement, as far as the operands go. -/
theorem negateIf_mod (cond : Bool) : (negateIf cond x).toNat % 2 ^ sizeBits word =
    complementIf cond (sizeBits word) (x.toNat % 2 ^ sizeBits word) := by
  have hx := x.isLt
  cases cond with
  | false => rfl
  | true =>
    unfold negateIf complementIf
    rw [if_pos rfl, if_pos rfl, not_add_one_toNat]
    cases word
    · change (2 ^ 16 - x.toNat) % 2 ^ 16 % 2 ^ 8 = (2 ^ 8 - x.toNat % 2 ^ 8) % 2 ^ 8
      omega
    · change (2 ^ 16 - x.toNat) % 2 ^ 16 % 2 ^ 16 = (2 ^ 16 - x.toNat % 2 ^ 16) % 2 ^ 16
      omega

theorem top_bit_negative (signed : Bool) :
    (signed && top_bit x (sizeBits word)) =
      negative signed (sizeBits word) (x.toNat % 2 ^ sizeBits word) := by
  have hx := x.isLt
  rw [negative, top_bit_toNat]
  congr 1
  rw [decide_eq_decide]
  cases word
  · change x.toNat / 2 ^ 7 % 2 = 1 ↔ 2 ^ 7 ≤ x.toNat % 2 ^ 8
    omega
  · change x.toNat / 2 ^ 15 % 2 = 1 ↔ 2 ^ 15 ≤ x.toNat % 2 ^ 16
    omega

/-- An operand below 0 is complemented, and what is left is its magnitude. -/
theorem magnitude_mod (signed : Bool) :
    (negateIf (signed && top_bit x (sizeBits word)) x).toNat % 2 ^ sizeBits word =
      magnitude signed (sizeBits word) (x.toNat % 2 ^ sizeBits word) := by
  have hpos := Nat.two_pow_pos (sizeBits word - 1)
  rw [top_bit_negative, negateIf_mod, complementIf, magnitude]
  split_ifs with h
  · simp only [negative, Bool.and_eq_true, decide_eq_true_eq] at h
    rw [Nat.mod_eq_of_lt (by omega)]
  · rfl

end

/-- `if (a == 0) ++c` after a complement, as wide as the operands are. -/
theorem not_with_carry {word : Bool} {c low : BitVec 16} (hc : c.toNat < 2 ^ sizeBits word) :
    (if low = 0 then ~~~c + 1 else ~~~c).toNat % 2 ^ sizeBits word =
      (2 ^ sizeBits word - 1 - c.toNat + if low.toNat = 0 then 1 else 0) % 2 ^ sizeBits word := by
  have hzero : low = 0 ↔ low.toNat = 0 := by
    rw [← BitVec.toNat_inj]
    rfl
  have hnot : (~~~c).toNat = 2 ^ 16 - 1 - c.toNat := BitVec.toNat_not
  have hclt := c.isLt
  by_cases h0 : low = 0
  · rw [if_pos h0, if_pos (hzero.mp h0), not_add_one_toNat]
    cases word
    · change c.toNat < 2 ^ 8 at hc
      change (2 ^ 16 - c.toNat) % 2 ^ 16 % 2 ^ 8 = (2 ^ 8 - 1 - c.toNat + 1) % 2 ^ 8
      omega
    · change (2 ^ 16 - c.toNat) % 2 ^ 16 % 2 ^ 16 = (2 ^ 16 - 1 - c.toNat + 1) % 2 ^ 16
      omega
  · rw [if_neg h0, if_neg (fun h => h0 (hzero.mpr h)), hnot]
    cases word
    · change c.toNat < 2 ^ 8 at hc
      change (2 ^ 16 - 1 - c.toNat) % 2 ^ 8 = (2 ^ 8 - 1 - c.toNat + 0) % 2 ^ 8
      omega
    · change (2 ^ 16 - 1 - c.toNat) % 2 ^ 16 = (2 ^ 16 - 1 - c.toNat + 0) % 2 ^ 16
      omega

theorem mulBits_eq {opcode : BitVec 8} (h : opcode ≠ 0xd5) :
    mulBits opcode = sizeBits (isWord opcode) := by
  rw [mulBits, sizeBits]
  simp only [h, ne_eq, not_false_eq_true, true_and]

section

variable {word signed : Bool} {opcode rmdat : BitVec 8} {a b : BitVec 16} {st : Cpu} {x y : Nat}

/-- The fix-up of the sign after the loop. -/
theorem mul_result (hbits : mulBits opcode = sizeBits word) {na nb : Bool} {m : MulLoop}
    (hna : (mulSigned opcode rmdat && top_bit a (sizeBits word)) = na)
    (hnb : (mulSigned opcode rmdat && top_bit b (sizeBits word)) = nb)
    (hm : (mulTurn (sizeBits word) (negateIf nb b))^[sizeBits word] ⟨st, 0,
      (negateIf na a &&& sizeMask (sizeBits word)) >>> 1,
      isSet ((negateIf na a &&& sizeMask (sizeBits word)) &&& 1)⟩ = m) (hfits : Fits word m) :
    let st' := mul opcode rmdat a b st
    st'.cpu_data.toNat = complementIf (na ^^ nb) (sizeBits word) m.a.toNat ∧
      st'.cpu_dest.toNat % 2 ^ sizeBits word =
        if na ^^ nb then
          (2 ^ sizeBits word - 1 - m.c.toNat +
            if st'.cpu_data.toNat = 0 then 1 else 0) % 2 ^ sizeBits word
        else m.c.toNat := by
  intro st'
  have hfit (x : BitVec 16) : (x.setWidth 32).toNat = x.toNat := by
    rw [BitVec.toNat_setWidth, Nat.mod_eq_of_lt (x.isLt.trans (by decide))]
  have ha := hfits.a
  have hc := hfits.c
  have hdata : st'.cpu_data =
      (if na ^^ nb then (~~~m.a + 1) &&& sizeMask (sizeBits word) else m.a).setWidth 32 := by
    simp only [st', mul, hbits, hna, hnb, hm]
    rfl
  have hdest : st'.cpu_dest =
      (if na ^^ nb then
        (if (if na ^^ nb then (~~~m.a + 1) &&& sizeMask (sizeBits word) else m.a) = 0
          then ~~~m.c + 1 else ~~~m.c)
        else m.c).setWidth 32 := by
    simp only [st', mul, hbits, hna, hnb, hm]
    rfl
  rw [hdata, hdest, hfit, hfit]
  cases na ^^ nb with
  | false => exact ⟨rfl, Nat.mod_eq_of_lt hc⟩
  | true =>
    simp only [if_true]
    generalize hlow : (~~~m.a + 1) &&& sizeMask (sizeBits word) = low
    have hlowNat : low.toNat = complementIf true (sizeBits word) m.a.toNat := by
      rw [← hlow, and_sizeMask]
      have h := @negateIf_mod word m.a true
      rwa [Nat.mod_eq_of_lt ha] at h
    exact ⟨hlowNat, not_with_carry hc⟩

/-- `mul` leaves the word of the product in its two globals, with the carry that an ADC has left in
the upper half. -/
theorem mul_spec (hop : opcode ≠ 0xd5) (hword : isWord opcode = word)
    (hsigned : mulSigned opcode rmdat = signed) (hx : a.toNat % 2 ^ sizeBits word = x)
    (hy : b.toNat % 2 ^ sizeBits word = y) :
    let st' := mul opcode rmdat a b st
    st'.cpu_data.toNat < 2 ^ sizeBits word ∧ ∃ p extra,
      p = magnitude signed (sizeBits word) x * magnitude signed (sizeBits word) y +
        2 ^ sizeBits word * extra ∧
      p < 2 ^ (2 * sizeBits word) ∧
      st'.cpu_dest.toNat % 2 ^ sizeBits word * 2 ^ sizeBits word + st'.cpu_data.toNat =
        complementIf (negative signed (sizeBits word) x ^^ negative signed (sizeBits word) y)
          (2 * sizeBits word) p ∧
      (extra ≠ 0 ↔ bumpedFor 2 st = true ∧ x ≠ 0) := by
  intro st'
  have hbits : mulBits opcode = sizeBits word := by rw [mulBits_eq hop, hword]
  have hxlt : x < 2 ^ sizeBits word := hx ▸ Nat.mod_lt _ (Nat.two_pow_pos _)
  have hna := @top_bit_negative word a signed
  have hnb := @top_bit_negative word b signed
  have hA := @magnitude_mod word a signed
  have hB := @magnitude_mod word b signed
  rw [hx] at hna hA
  rw [hy] at hnb hB
  generalize negative signed (sizeBits word) x = na at hna ⊢
  generalize negative signed (sizeBits word) y = nb at hnb ⊢
  rw [hna, ← and_sizeMask] at hA
  rw [hnb] at hB
  have hAlt := @magnitude_lt signed (sizeBits word) x hxlt
  have hloop := @mul_loop word (negateIf nb b) (negateIf na a &&& sizeMask (sizeBits word))
    (hA.trans_lt hAlt) st
  generalize hm : (mulTurn (sizeBits word) (negateIf nb b))^[sizeBits word] ⟨st, 0,
    (negateIf na a &&& sizeMask (sizeBits word)) >>> 1,
    isSet ((negateIf na a &&& sizeMask (sizeBits word)) &&& 1)⟩ = m at hloop
  obtain ⟨hfits, extra, hproduct, hextra⟩ := hloop
  obtain ⟨hdata, hdest⟩ := mul_result hbits (hsigned ▸ hna) (hsigned ▸ hnb) hm hfits
  have hc := hfits.c
  have ha := hfits.a
  have hpair : m.c.toNat * 2 ^ sizeBits word + m.a.toNat < 2 ^ (2 * sizeBits word) := by
    have hle : (m.c.toNat + 1) * 2 ^ sizeBits word ≤ 2 ^ sizeBits word * 2 ^ sizeBits word :=
      Nat.mul_le_mul_right _ hc
    rw [Nat.add_mul, Nat.one_mul] at hle
    rw [Nat.two_mul, Nat.pow_add]
    omega
  rw [hA, hB] at hproduct
  rw [hA, ne_eq (magnitude signed (sizeBits word) x), magnitude_eq_zero hxlt] at hextra
  refine ⟨hdata.trans_lt (complementIf_lt ha), _, extra, hproduct, hpair, ?_, hextra⟩
  rw [hdest, hdata]
  unfold complementIf
  cases na ^^ nb with
  | false => rfl
  | true => exact complement_pair hc ha

end

/-! ## What the manual says -/

/-- The multiplications and divisions of f6 and f7. -/
inductive Op where
  | mul | imul | div | idiv
deriving DecidableEq, Repr

/-- `rmdat & 0x38` -/
def Op.field : Op → BitVec 8
  | .mul => 0x20
  | .imul => 0x28
  | .div => 0x30
  | .idiv => 0x38

def Op.signed : Op → Bool
  | .mul | .div => false
  | .imul | .idiv => true

/-- `AX` of a byte instruction, `DX:AX` of a word instruction. -/
def Machine.wide (word : Bool) (m : Machine) : Nat :=
  if word then m.DX.toNat * 2 ^ 16 + m.AX.toNat else m.AX.toNat

def Machine.lower (word : Bool) (m : Machine) : Nat := m.wide word % 2 ^ sizeBits word

def Machine.upper (word : Bool) (m : Machine) : Nat := m.wide word / 2 ^ sizeBits word

/-- The accumulator is multiplied by `ea`. The two flags tell whether the upper half is more than
the extension of the lower one. -/
structure Multiplies (signed word : Bool) (ea : BitVec 16) (m m' : Machine) : Prop where
  product : reading signed (2 * sizeBits word) (m'.wide word) =
    reading signed (sizeBits word) (m.lower word) *
      reading signed (sizeBits word) (ea.toNat % 2 ^ sizeBits word)
  flags : (stored m'.st.flags).c = (stored m'.st.flags).o ∧
    ((stored m'.st.flags).c = true ↔ m'.upper word ≠
      if negative signed (sizeBits word) (m'.lower word) then 2 ^ sizeBits word - 1 else 0)
  rest : word = false → m'.DX = m.DX
  interrupts : m'.interrupts = m.interrupts

/-- The accumulator is divided by `ea`, or the interrupt comes and the registers stay. -/
def Divides (signed word : Bool) (ea : BitVec 16) (m m' : Machine) : Prop :=
  let dividend := reading signed (2 * sizeBits word) (m.wide word)
  let divisor := reading signed (sizeBits word) (ea.toNat % 2 ^ sizeBits word)
  (NoQuotient signed (sizeBits word) dividend divisor →
    m'.interrupts = m.interrupts ++ [0] ∧ m'.AX = m.AX ∧ m'.DX = m.DX) ∧
  (¬NoQuotient signed (sizeBits word) dividend divisor →
    m'.interrupts = m.interrupts ∧
    reading signed (sizeBits word) (m'.lower word) = dividend.tdiv divisor ∧
    reading signed (sizeBits word) (m'.upper word) = dividend.tmod divisor ∧
    (word = false → m'.DX = m.DX))

/-! ## The registers after a multiplication -/

section

variable {word : Bool} (m : Machine)

theorem wide_lt : m.wide word < 2 ^ (2 * sizeBits word) := by
  have hAX := m.AX.isLt
  have hDX := m.DX.isLt
  cases word
  · exact hAX
  · change m.DX.toNat * 2 ^ 16 + m.AX.toNat < 2 ^ 32
    omega

theorem lower_lt : m.lower word < 2 ^ sizeBits word := Nat.mod_lt _ (Nat.two_pow_pos _)

theorem upper_lt : m.upper word < 2 ^ sizeBits word := by
  rw [Machine.upper, Nat.div_lt_iff_lt_mul (Nat.two_pow_pos _), ← Nat.pow_add, ← Nat.two_mul]
  exact wide_lt m

theorem wide_eq : m.wide word = m.upper word * 2 ^ sizeBits word + m.lower word := by
  rw [Machine.upper, Machine.lower, Nat.mul_comm]
  exact (Nat.div_add_mod _ _).symm

theorem get_accum_mod : (m.get_accum word).toNat % 2 ^ sizeBits word = m.lower word := by
  have hAX := m.AX.isLt
  cases word
  · change (((m.AX.setWidth 8).setWidth 16).toNat) % 2 ^ 8 = m.AX.toNat % 2 ^ 8
    rw [BitVec.toNat_setWidth, BitVec.toNat_setWidth]
    omega
  · change m.AX.toNat % 2 ^ 16 = (m.DX.toNat * 2 ^ 16 + m.AX.toNat) % 2 ^ 16
    omega

theorem sized_mod (ea : BitVec 16) :
    (sized word ea).toNat % 2 ^ sizeBits word = ea.toNat % 2 ^ sizeBits word := by
  cases word
  · have h := and_sizeMask false ea
    change (ea &&& 0xff).toNat = ea.toNat % 2 ^ 8 at h
    change (ea &&& 0xff).toNat % 2 ^ 8 = ea.toNat % 2 ^ 8
    rw [h, Nat.mod_mod]
  · rfl

variable (is_nec : Bool) (opcode rmdat : BitVec 8) (ea : BitVec 16)

/-- The state that `mul` leaves for a multiplication of f6 or f7. -/
def Machine.multiplied (opcode rmdat : BitVec 8) (ea : BitVec 16) (m : Machine) : Cpu :=
  mul opcode rmdat (m.get_accum (isWord opcode)) (sized (isWord opcode) ea)
    { m.st with cpu_data := (sized (isWord opcode) ea).setWidth 32 }

/-- The two halves come from the two globals. -/
theorem mul_rm_halves :
    let m' := mul_rm is_nec opcode rmdat ea m
    let st := m.multiplied opcode rmdat ea
    let N := sizeBits (isWord opcode)
    m'.lower (isWord opcode) = st.cpu_data.toNat % 2 ^ N ∧
      m'.upper (isWord opcode) = st.cpu_dest.toNat % 2 ^ N ∧
      (isWord opcode = false → m'.DX = m.DX) ∧ m'.interrupts = m.interrupts := by
  intro m' st N
  have hst : m.multiplied opcode rmdat ea = st := rfl
  have hm' : mul_rm is_nec opcode rmdat ea m = m' := rfl
  simp only [mul_rm] at hm'
  rw [Machine.multiplied] at hst
  simp only [hst] at hm'
  simp only [Machine.lower, Machine.upper, N]
  cases hword : isWord opcode with
  | false =>
    simp only [hword, Bool.false_eq_true, if_false] at hm'
    have hAX : m'.AX = st.cpu_dest.setWidth 8 ++ st.cpu_data.setWidth 8 := by rw [← hm']
    have hwide : m'.wide false = st.cpu_dest.toNat % 2 ^ 8 * 2 ^ 8 + st.cpu_data.toNat % 2 ^ 8 := by
      change m'.AX.toNat = _
      rw [hAX, BitVec.toNat_append, BitVec.toNat_setWidth, BitVec.toNat_setWidth,
        Nat.shiftLeft_eq, ← Nat.mul_comm (2 ^ 8),
        Nat.two_pow_add_eq_or_of_lt (Nat.mod_lt _ (by decide))]
    rw [hwide]
    change _ % 2 ^ 8 = _ % 2 ^ 8 ∧ _ / 2 ^ 8 = _ % 2 ^ 8 ∧ _
    refine ⟨by omega, by omega, ?_, ?_⟩ <;> rw [← hm']
    exact fun _ => rfl
  | true =>
    simp only [hword, if_true] at hm'
    have hwide : m'.wide true =
        st.cpu_dest.toNat % 2 ^ 16 * 2 ^ 16 + st.cpu_data.toNat % 2 ^ 16 := by
      rw [← hm']
      change (st.cpu_dest.setWidth 16).toNat * 2 ^ 16 + (st.cpu_data.setWidth 16).toNat = _
      rw [BitVec.toNat_setWidth, BitVec.toNat_setWidth]
    rw [hwide]
    change _ % 2 ^ 16 = _ % 2 ^ 16 ∧ _ / 2 ^ 16 = _ % 2 ^ 16 ∧ _
    refine ⟨by omega, by omega, nofun, ?_⟩
    rw [← hm']

/-- The flags of a multiplication, when it does not keep its own Z. -/
theorem stored_keepZ (flags old : BitVec 16) :
    (stored ((flags &&& ~~~Z_FLAG) ||| (old &&& Z_FLAG))).c = (stored flags).c ∧
      (stored ((flags &&& ~~~Z_FLAG) ||| (old &&& Z_FLAG))).o = (stored flags).o := by
  simp only [stored_bits, BitVec.getLsbD_or, BitVec.getLsbD_and, BitVec.getLsbD_not]
  refine ⟨?_, ?_⟩
  · rw [show Z_FLAG.getLsbD 0 = false from rfl]
    simp
  · rw [show Z_FLAG.getLsbD 11 = false from rfl]
    simp

theorem stored_set_co_mul (carry : Bool) (st : Cpu) :
    (stored (set_co_mul carry st).flags).c = carry ∧
      (stored (set_co_mul carry st).flags).o = carry := by
  simp only [set_co_mul, set_zf_ex, set_of, set_cf, stored_Z, stored_V, stored_C, and_self]

/-- The upper half that the code compares with. -/
theorem extension_toNat (signed positive : Bool) {lower : Nat}
    (hpositive : positive = !decide (2 ^ (sizeBits word - 1) ≤ lower)) :
    (extension (!signed) positive (sizeMask (sizeBits word))).toNat =
      if negative signed (sizeBits word) lower then 2 ^ sizeBits word - 1 else 0 := by
  have hmask : (sizeMask (sizeBits word)).toNat = 2 ^ sizeBits word - 1 := by cases word <;> rfl
  rw [extension, negative, hpositive]
  cases signed <;> cases decide (2 ^ (sizeBits word - 1) ≤ lower)
  · rfl
  · rfl
  · rfl
  · exact hmask

/-- The sign that the instruction looks at. -/
theorem and_twoPow_eq_zero {w : Nat} (x : BitVec (w + 1)) :
    decide (x &&& BitVec.twoPow (w + 1) w = 0) = !decide (2 ^ w ≤ x.toNat) := by
  have hbit := isSet_twoPow x w
  have hmsb := BitVec.msb_eq_decide x
  rw [BitVec.msb_eq_getLsbD_last, Nat.add_sub_cancel] at hmsb
  rw [← hmsb, ← hbit, isSet, bne, Bool.not_not]
  rfl

theorem carry_byte (st : Cpu) (signed : Bool) :
    decide ((st.cpu_dest.setWidth 8).setWidth 16 ≠
        extension (!signed) (st.cpu_data.setWidth 8 &&& 0x80#8 = 0) 0xff) = true ↔
      st.cpu_dest.toNat % 2 ^ 8 ≠
        if negative signed 8 (st.cpu_data.toNat % 2 ^ 8) then 2 ^ 8 - 1 else 0 := by
  have hext := @extension_toNat false signed _ _
    (and_twoPow_eq_zero (w := 7) (st.cpu_data.setWidth 8))
  rw [BitVec.toNat_setWidth] at hext
  have hdest : ((st.cpu_dest.setWidth 8).setWidth 16).toNat = st.cpu_dest.toNat % 2 ^ 8 := by
    rw [BitVec.toNat_setWidth, BitVec.toNat_setWidth]
    omega
  rw [decide_eq_true_iff, ne_eq, ← BitVec.toNat_inj, hdest]
  exact not_congr (Eq.congr_right hext)

theorem carry_word (st : Cpu) (signed : Bool) :
    decide (st.cpu_dest.setWidth 16 ≠
        extension (!signed) (st.cpu_data.setWidth 16 &&& 0x8000#16 = 0) 0xffff) = true ↔
      st.cpu_dest.toNat % 2 ^ 16 ≠
        if negative signed 16 (st.cpu_data.toNat % 2 ^ 16) then 2 ^ 16 - 1 else 0 := by
  have hext := @extension_toNat true signed _ _
    (and_twoPow_eq_zero (w := 15) (st.cpu_data.setWidth 16))
  rw [BitVec.toNat_setWidth] at hext
  rw [decide_eq_true_iff, ne_eq, ← BitVec.toNat_inj, BitVec.toNat_setWidth]
  exact not_congr (Eq.congr_right hext)

theorem stored_pf_sf (bits : Nat) (st : Cpu) :
    (stored (set_pf (set_sf bits st)).flags).c = (stored st.flags).c ∧
      (stored (set_pf (set_sf bits st)).flags).o = (stored st.flags).o := by
  simp only [set_pf, set_sf, stored_P, stored_N, and_self]

/-- The two flags after the rest of the instruction are what `set_co_mul` has put there. -/
theorem mul_rm_flags {signed : Bool} (hsigned : decide (rmdat &&& 0x38 = 0x20) = !signed) :
    let m' := mul_rm is_nec opcode rmdat ea m
    let N := sizeBits (isWord opcode)
    (stored m'.st.flags).c = (stored m'.st.flags).o ∧
      ((stored m'.st.flags).c = true ↔ m'.upper (isWord opcode) ≠
        if negative signed N (m'.lower (isWord opcode)) then 2 ^ N - 1 else 0) := by
  intro m' N
  obtain ⟨hlower, hupper, -, -⟩ := mul_rm_halves m is_nec opcode rmdat ea
  have hm' : mul_rm is_nec opcode rmdat ea m = m' := rfl
  generalize hst : m.multiplied opcode rmdat ea = st at hlower hupper
  rw [Machine.multiplied] at hst
  rw [hm'] at hlower hupper
  simp only [mul_rm, hst, hsigned] at hm'
  have hkept (carry : Bool) (before : Cpu) (hflags : before.flags = (set_co_mul carry st).flags)
      (hafter : m'.st = if is_nec then
        { set_pf (set_sf (sizeBits (isWord opcode)) before) with
          flags := ((set_pf (set_sf (sizeBits (isWord opcode)) before)).flags &&& ~~~Z_FLAG) |||
            (m.st.flags &&& Z_FLAG) }
        else set_pf (set_sf (sizeBits (isWord opcode)) before)) :
      (stored m'.st.flags).c = carry ∧ (stored m'.st.flags).o = carry := by
    obtain ⟨hc, ho⟩ := stored_set_co_mul carry st
    obtain ⟨hpc, hpo⟩ := stored_pf_sf (sizeBits (isWord opcode)) before
    rw [hflags, hc] at hpc
    rw [hflags, ho] at hpo
    rw [hafter]
    cases is_nec with
    | false => exact ⟨hpc, hpo⟩
    | true =>
      obtain ⟨hzc, hzo⟩ := stored_keepZ
        (set_pf (set_sf (sizeBits (isWord opcode)) before)).flags m.st.flags
      exact ⟨hzc.trans hpc, hzo.trans hpo⟩
  have hcarry : ∃ carry : Bool, ((stored m'.st.flags).c = carry ∧ (stored m'.st.flags).o = carry) ∧
      (carry = true ↔ st.cpu_dest.toNat % 2 ^ N ≠
        if negative signed N (st.cpu_data.toNat % 2 ^ N) then 2 ^ N - 1 else 0) := by
    cases hword : isWord opcode with
    | false =>
      simp only [hword, Bool.false_eq_true, if_false] at hm' hkept
      let carry := decide ((st.cpu_dest.setWidth 8).setWidth 16 ≠
        extension (!signed) (st.cpu_data.setWidth 8 &&& 0x80#8 = 0) 0xff)
      refine ⟨carry, hkept carry (if is_nec then set_co_mul carry st else
        { set_co_mul carry st with cpu_data := (st.cpu_dest.setWidth 8).setWidth 32 }) ?_ ?_, ?_⟩
      · cases is_nec <;> rfl
      · exact congrArg Machine.st hm'.symm
      · have hN : N = sizeBits false := congrArg sizeBits hword
        rw [hN]
        exact carry_byte st signed
    | true =>
      simp only [hword, if_true] at hm' hkept
      let carry := decide (st.cpu_dest.setWidth 16 ≠
        extension (!signed) (st.cpu_data.setWidth 16 &&& 0x8000#16 = 0) 0xffff)
      refine ⟨carry, hkept carry { set_co_mul carry st with
        cpu_data := (st.cpu_dest.setWidth 16).setWidth 32 } rfl ?_, ?_⟩
      · exact congrArg Machine.st hm'.symm
      · have hN : N = sizeBits true := congrArg sizeBits hword
        rw [hN]
        exact carry_word st signed
  obtain ⟨carry, ⟨hc, ho⟩, hiff⟩ := hcarry
  rw [hlower, hupper]
  exact ⟨hc.trans ho.symm, hc ▸ hiff⟩

/-- The product is right, but for the carry that an ADC has left. -/
theorem multiplies_iff {signed : Bool} (hword : isWord opcode = word) (hop : opcode ≠ 0xd5)
    (hsigned : mulSigned opcode rmdat = signed)
    (hunsigned : decide (rmdat &&& 0x38 = 0x20) = !signed) :
    Multiplies signed word ea m (mul_rm is_nec opcode rmdat ea m) ↔
      ¬(bumpedFor 2 m.st = true ∧ m.lower word ≠ 0) := by
  obtain ⟨hlower, hupper, hrest, hinterrupts⟩ := mul_rm_halves m is_nec opcode rmdat ea
  have hflags := mul_rm_flags m is_nec opcode rmdat ea hunsigned
  have hsize := sizeBits_bounds word
  have hx : (m.get_accum word).toNat % 2 ^ sizeBits word = m.lower word := get_accum_mod m
  have hy : (sized word ea).toNat % 2 ^ sizeBits word = ea.toNat % 2 ^ sizeBits word := sized_mod ea
  have hspec := @mul_spec word signed opcode rmdat (m.get_accum word) (sized word ea)
    { m.st with cpu_data := (sized word ea).setWidth 32 } _ _ hop hword hsigned hx hy
  have hst : m.multiplied opcode rmdat ea = mul opcode rmdat (m.get_accum word) (sized word ea)
      { m.st with cpu_data := (sized word ea).setWidth 32 } := by rw [Machine.multiplied, hword]
  rw [← hst] at hspec
  rw [hword] at hlower hupper hrest hflags
  generalize m.multiplied opcode rmdat ea = st at hlower hupper hspec
  generalize mul_rm is_nec opcode rmdat ea m = m' at hlower hupper hrest hinterrupts hflags ⊢
  obtain ⟨hdata, p, extra, hp, hplt, hwide, hextra⟩ := hspec
  have hwide' : m'.wide word = complementIf (negative signed (sizeBits word) (m.lower word) ^^
      negative signed (sizeBits word) (ea.toNat % 2 ^ sizeBits word)) (2 * sizeBits word) p := by
    rw [wide_eq, hupper, hlower, Nat.mod_eq_of_lt hdata]
    exact hwide
  have hxlt := @lower_lt word m
  have hylt : ea.toNat % 2 ^ sizeBits word < 2 ^ sizeBits word := Nat.mod_lt _ (Nat.two_pow_pos _)
  have hexact := @reading_product signed (sizeBits word) (m.lower word)
    (ea.toNat % 2 ^ sizeBits word) (by omega) hxlt hylt
  have hsmall : magnitude signed (sizeBits word) (m.lower word) *
      magnitude signed (sizeBits word) (ea.toNat % 2 ^ sizeBits word) <
        2 ^ (2 * sizeBits word) := by
    omega
  have hpos := Nat.two_pow_pos (sizeBits word)
  have hright : reading signed (2 * sizeBits word) (m'.wide word) =
      reading signed (sizeBits word) (m.lower word) *
        reading signed (sizeBits word) (ea.toNat % 2 ^ sizeBits word) ↔ extra = 0 := by
    rw [← hexact, hwide']
    constructor
    · intro h
      have heq := complementIf_injective hplt hsmall
        (reading_injective (complementIf_lt hplt) (complementIf_lt hsmall) h)
      have hzero : 2 ^ sizeBits word * extra = 0 := by omega
      exact (Nat.mul_eq_zero.mp hzero).resolve_left hpos.ne'
    · intro h
      rw [hp, h, Nat.mul_zero, Nat.add_zero]
  have hnone : extra = 0 ↔ ¬(bumpedFor 2 m.st = true ∧ m.lower word ≠ 0) :=
    not_not.symm.trans (not_congr hextra)
  rw [← hnone, ← hright]
  exact ⟨fun h => h.product, fun h => ⟨h, hflags, hrest, hinterrupts⟩⟩

end

end blumach.cpu_808x
