-- The laws of the microcode division: CORD is a long division with the digits of the quotient
-- turned over, and the routine takes a division exactly where the quotient has a word.
import BluMach.Cpu808xMulLaws
import BluMach.LongDivision
import BluMach.MartyDiv
import Mathlib.Tactic.SplitIfs

namespace blumach.m808x

open arith_flags x86_flags signed_words
open cpu_808x (sizeBits sizeBits_bounds two_pow_size)

/-! ## Words of 8 and of 16 bits, as numbers -/

section

variable {word : Bool} (x y : BitVec 16)

theorem and_width_mask :
    (x &&& width_mask (sizeBits word)).toNat = x.toNat % 2 ^ sizeBits word := by
  have hmask : width_mask (sizeBits word) = cpu_808x.sizeMask (sizeBits word) := by
    cases word <;> rfl
  rw [hmask]
  exact cpu_808x.and_sizeMask word x

theorem and_width_sign : decide (x &&& width_sign (sizeBits word) ≠ 0) =
    negative true (sizeBits word) (x.toNat % 2 ^ sizeBits word) := by
  have htop := @cpu_808x.top_bit_negative word x true
  have hsign : width_sign (sizeBits word) = BitVec.twoPow 16 (sizeBits word - 1) := by
    cases word <;> rfl
  rw [Bool.true_and, cpu_808x.top_bit, isSet, ← hsign] at htop
  rw [← htop]
  simp only [ne_eq, decide_not, bne, beq_eq_decide]

/-- The digit at the top. -/
theorem negative_toNat {n x : Nat} (hn : 0 < n) (hx : x < 2 ^ n) :
    (negative true n x).toNat = x / 2 ^ (n - 1) := by
  have hhalf := two_pow_half hn
  have hpos := Nat.two_pow_pos (n - 1)
  unfold negative
  by_cases h : 2 ^ (n - 1) ≤ x
  · have hone : x / 2 ^ (n - 1) = 1 := (Nat.div_eq_iff hpos).mpr (by omega)
    rw [decide_eq_true h, hone]
    rfl
  · rw [decide_eq_false h, Nat.div_eq_of_lt (by omega)]
    rfl

theorem width_rcl1_spec (carry : Bool) :
    (width_rcl1 x (sizeBits word) carry).1.toNat =
        (2 * (x.toNat % 2 ^ sizeBits word) + carry.toNat) % 2 ^ sizeBits word ∧
      (width_rcl1 x (sizeBits word) carry).2 =
        negative true (sizeBits word) (x.toNat % 2 ^ sizeBits word) := by
  have hmask := @and_width_mask word x
  unfold width_rcl1
  generalize x &&& width_mask (sizeBits word) = v at hmask ⊢
  dsimp only
  rw [and_width_mask, and_width_sign, hmask, Nat.mod_mod]
  refine ⟨?_, rfl⟩
  have hpow : 2 ^ sizeBits word ∣ 2 ^ 16 := Nat.pow_dvd_pow 2 (sizeBits_bounds word).2
  have hor : v <<< 1 ||| bitIf carry = v <<< 1 + bitIf carry := by
    rw [BitVec.add_eq_or_of_and_eq_zero]
    cases carry
    · exact BitVec.and_zero
    · ext i hi
      rcases i with _ | i
      · simp [bitIf]
      · simp [bitIf]
  have hbit : (bitIf carry).toNat = carry.toNat := by cases carry <;> rfl
  rw [hor, BitVec.toNat_add, BitVec.toNat_shiftLeft, hbit, Nat.shiftLeft_eq, Nat.mod_add_mod,
    Nat.mod_mod_of_dvd _ hpow, Nat.pow_one, hmask, Nat.mul_comm]

theorem width_sub_spec :
    (width_sub x y (sizeBits word)).result.toNat =
        (x.toNat % 2 ^ sizeBits word + 2 ^ sizeBits word - y.toNat % 2 ^ sizeBits word) %
          2 ^ sizeBits word ∧
      (width_sub x y (sizeBits word)).carry =
        decide (x.toNat % 2 ^ sizeBits word < y.toNat % 2 ^ sizeBits word) := by
  have hx := @and_width_mask word x
  have hy := @and_width_mask word y
  unfold width_sub
  generalize x &&& width_mask (sizeBits word) = u at hx ⊢
  generalize y &&& width_mask (sizeBits word) = v at hy ⊢
  dsimp only
  rw [and_width_mask, BitVec.toNat_sub, ← hx, ← hy]
  refine ⟨?_, decide_eq_decide.mpr BitVec.lt_def⟩
  have hu : u.toNat < 2 ^ sizeBits word := by
    rw [hx]
    exact Nat.mod_lt _ (Nat.two_pow_pos _)
  have hv : v.toNat < 2 ^ sizeBits word := by
    rw [hy]
    exact Nat.mod_lt _ (Nat.two_pow_pos _)
  cases word
  · change (2 ^ 16 - v.toNat + u.toNat) % 2 ^ 16 % 2 ^ 8 = (u.toNat + 2 ^ 8 - v.toNat) % 2 ^ 8
    change u.toNat < 2 ^ 8 at hu
    change v.toNat < 2 ^ 8 at hv
    omega
  · change (2 ^ 16 - v.toNat + u.toNat) % 2 ^ 16 % 2 ^ 16 = (u.toNat + 2 ^ 16 - v.toNat) % 2 ^ 16
    omega

end

/-! ## A core that has stopped -/

section

variable {σ : Type} (bus : Bus σ) {icpu : Icpu σ}

theorem cycle_fatal (line : BitVec 16) (h : icpu.fatal bus = true) :
    (biu_cycle_i bus line icpu).fatal bus = true :=
  bus.fatal_stays line icpu.rest h

theorem cycles_fatal (lines : List (BitVec 16)) (h : icpu.fatal bus = true) :
    (cycles_mc bus lines icpu).fatal bus = true := by
  cases lines with
  | nil => exact h
  | cons line lines =>
    rw [cycles_mc, if_pos h]
    exact h

theorem cordLoop_fatal (bits : Nat) (tmpb : BitVec 16) (counter : Nat) {s : CordLoop σ}
    (h : s.icpu.fatal bus = true) : (cordLoop bus bits tmpb counter s).icpu.fatal bus = true := by
  cases counter with
  | zero => exact h
  | succ counter =>
    rw [cordLoop, if_pos h]
    exact h

end

/-! ## CORD -/

/-- The registers of the loop, as a long division has them. -/
def CordLoop.state {σ : Type} (s : CordLoop σ) : long_division.State :=
  ⟨s.tmpa.toNat, s.tmpc.toNat, s.carry⟩

section

variable {σ : Type} (bus : Bus σ) {word : Bool} {s : CordLoop σ} {tmpb : BitVec 16}

/-- A turn of the loop is a turn of the long division. -/
theorem cordTurn_spec (counter : Nat) (hb : tmpb.toNat < 2 ^ sizeBits word)
    (ha : s.tmpa.toNat < tmpb.toNat) (hc : s.tmpc.toNat < 2 ^ sizeBits word) :
    (cordTurn bus (sizeBits word) tmpb counter s).state =
      long_division.turn (sizeBits word) tmpb.toNat s.state := by
  have hbits := sizeBits_bounds word
  have hhalf := @two_pow_half (sizeBits word) (by omega)
  obtain ⟨hlow, hdigit⟩ := @width_rcl1_spec word s.tmpc s.carry
  obtain ⟨hhigh, hover⟩ :=
    @width_rcl1_spec word s.tmpa (width_rcl1 s.tmpc (sizeBits word) s.carry).2
  have halt : s.tmpa.toNat < 2 ^ sizeBits word := ha.trans hb
  rw [Nat.mod_eq_of_lt hc] at hlow hdigit
  rw [Nat.mod_eq_of_lt halt] at hhigh hover
  have hdigitNat : (width_rcl1 s.tmpc (sizeBits word) s.carry).2.toNat =
      s.tmpc.toNat / 2 ^ (sizeBits word - 1) := by
    rw [hdigit]
    exact negative_toNat (by omega) hc
  have hone := Bool.toNat_le (width_rcl1 s.tmpc (sizeBits word) s.carry).2
  rw [hdigitNat] at hhigh hone
  have hnext : s.state.next (sizeBits word) =
      2 * s.tmpa.toNat + s.tmpc.toNat / 2 ^ (sizeBits word - 1) := rfl
  unfold cordTurn long_division.turn
  rw [hnext]
  dsimp only
  generalize s.tmpc.toNat / 2 ^ (sizeBits word - 1) = digit at *
  generalize hx : (width_rcl1 s.tmpa (sizeBits word)
    (width_rcl1 s.tmpc (sizeBits word) s.carry).2).1 = x at *
  obtain ⟨hresult, hborrow⟩ := @width_sub_spec word x tmpb
  rw [Nat.mod_eq_of_lt hb] at hresult hborrow
  rw [hhigh, Nat.mod_mod] at hresult hborrow
  have hover' : (width_rcl1 s.tmpa (sizeBits word)
      (width_rcl1 s.tmpc (sizeBits word) s.carry).2).2 = true ↔
        2 ^ (sizeBits word - 1) ≤ s.tmpa.toNat := by
    rw [hover, negative, Bool.true_and, decide_eq_true_iff]
  by_cases hbig : 2 ^ (sizeBits word - 1) ≤ s.tmpa.toNat
  · have hgoes : tmpb.toNat ≤ 2 * s.tmpa.toNat + digit := by omega
    have hwrap : (2 * s.tmpa.toNat + digit) % 2 ^ sizeBits word =
        2 * s.tmpa.toNat + digit - 2 ^ sizeBits word := by
      rw [Nat.mod_eq_sub_mod (by omega), Nat.mod_eq_of_lt (by omega)]
    rw [hwrap, Nat.mod_eq_of_lt (by omega)] at hresult
    rw [if_pos (hover'.mpr hbig), if_pos hgoes]
    ext1
    · change (width_sub x tmpb (sizeBits word)).result.toNat = 2 * s.tmpa.toNat + digit - tmpb.toNat
      omega
    · exact hlow
    · simp only [hgoes, not_true, decide_false]
      rfl
  · rw [Nat.mod_eq_of_lt (by omega : 2 * s.tmpa.toNat + digit < 2 ^ sizeBits word)] at *
    rw [if_neg (fun h => hbig (hover'.mp h))]
    by_cases hgoes : tmpb.toNat ≤ 2 * s.tmpa.toNat + digit
    · have hno : (width_sub x tmpb (sizeBits word)).carry = false := by
        rw [hborrow, decide_eq_false_iff_not]
        omega
      rw [Nat.mod_eq_sub_mod (by omega), Nat.mod_eq_of_lt (by omega)] at hresult
      rw [hno, if_pos (by decide), if_pos hgoes]
      ext1
      · change (width_sub x tmpb (sizeBits word)).result.toNat =
          2 * s.tmpa.toNat + digit - tmpb.toNat
        omega
      · exact hlow
      · simp only [hgoes, not_true, decide_false]
        rfl
    · have hyes : (width_sub x tmpb (sizeBits word)).carry = true := by
        rw [hborrow, decide_eq_true_iff]
        omega
      rw [hyes, if_neg (by decide), if_neg hgoes]
      ext1
      · exact hhigh
      · exact hlow
      · simp only [hgoes, not_false_eq_true, decide_true]
        rfl

/-- So are all of its turns, in a core that has not stopped by their end. -/
theorem cordLoop_spec (counter : Nat) (hb : tmpb.toNat < 2 ^ sizeBits word)
    (ha : s.tmpa.toNat < tmpb.toNat) (hc : s.tmpc.toNat < 2 ^ sizeBits word)
    (hruns : (cordLoop bus (sizeBits word) tmpb counter s).icpu.fatal bus = false) :
    (cordLoop bus (sizeBits word) tmpb counter s).state =
      (long_division.turn (sizeBits word) tmpb.toNat)^[counter] s.state := by
  induction counter generalizing s with
  | zero => rfl
  | succ counter ih =>
    have hrunning : s.icpu.fatal bus = false := by
      by_contra h
      rw [Bool.not_eq_false] at h
      have hstopped := cordLoop_fatal bus (sizeBits word) tmpb (counter + 1) h
      rw [hruns] at hstopped
      exact Bool.false_ne_true hstopped
    have hturn := cordTurn_spec bus counter hb ha hc
    rw [cordLoop, hrunning, if_neg Bool.false_ne_true] at hruns ⊢
    have hrest := @long_division.turn_rest_lt (sizeBits word) tmpb.toNat s.state ha hc
    have hdigits : (long_division.turn (sizeBits word) tmpb.toNat s.state).digits <
        2 ^ sizeBits word := Nat.mod_lt _ (Nat.two_pow_pos _)
    rw [← hturn] at hrest hdigits
    rw [ih hrest hdigits hruns, hturn, Function.iterate_succ_apply]

/-- CORD: it goes on where the divisor is more than the upper half, and divides. -/
theorem cord_spec {tmpa tmpb tmpc : BitVec 16} {a b c : Nat}
    (ha : tmpa.toNat % 2 ^ sizeBits word = a) (hb : tmpb.toNat % 2 ^ sizeBits word = b)
    (hc : tmpc.toNat % 2 ^ sizeBits word = c) {icpu : Icpu σ} {r : CordResult × Icpu σ}
    (hr : cord_cycles bus (sizeBits word) tmpa tmpb tmpc icpu = r) :
    (r.1.ok = true ↔ a < b) ∧
      (r.1.ok = true → r.2.fatal bus = false → ∀ q, (a * 2 ^ sizeBits word + c) / b = q →
        r.1.a.toNat = (a * 2 ^ sizeBits word + c) % b ∧
          r.1.c.toNat = 2 ^ sizeBits word - 1 - q ∧ q < 2 ^ sizeBits word ∧
          (r.1.carry = true ↔ q < 2 ^ (sizeBits word - 1))) ∧
      (icpu.fatal bus = true → r.2.fatal bus = true) := by
  have hbits := sizeBits_bounds word
  have hhalf := @two_pow_half (sizeBits word) (by omega)
  have hA := (@and_width_mask word tmpa).trans ha
  have hB := (@and_width_mask word tmpb).trans hb
  have hC := (@and_width_mask word tmpc).trans hc
  have halt : a < 2 ^ sizeBits word := ha ▸ Nat.mod_lt _ (Nat.two_pow_pos _)
  have hblt : b < 2 ^ sizeBits word := hb ▸ Nat.mod_lt _ (Nat.two_pow_pos _)
  have hclt : c < 2 ^ sizeBits word := hc ▸ Nat.mod_lt _ (Nat.two_pow_pos _)
  unfold cord_cycles at hr
  simp only [] at hr
  generalize tmpa &&& width_mask (sizeBits word) = tmpa at hA hr
  generalize tmpb &&& width_mask (sizeBits word) = tmpb at hB hr
  generalize tmpc &&& width_mask (sizeBits word) = tmpc at hC hr
  subst hA hB hC
  obtain ⟨-, hborrow⟩ := @width_sub_spec word tmpa tmpb
  rw [Nat.mod_eq_of_lt halt, Nat.mod_eq_of_lt hblt] at hborrow
  have hstopped : icpu.fatal bus = true →
      (cycles_mc bus [0x188, 0x189, 0x18a] (set_width_sub_flags (sizeBits word)
        (width_sub tmpa tmpb (sizeBits word)) icpu)).fatal bus = true :=
    fun h => cycles_fatal bus _ h
  generalize cycles_mc bus [0x188, 0x189, 0x18a] (set_width_sub_flags (sizeBits word)
    (width_sub tmpa tmpb (sizeBits word)) icpu) = icpu' at hr hstopped
  by_cases hless : tmpa.toNat < tmpb.toNat
  · have hyes : (width_sub tmpa tmpb (sizeBits word)).carry = true := by
      rw [hborrow]
      exact decide_eq_true hless
    rw [hyes, if_neg (by decide)] at hr
    have hloop := @cordLoop_spec σ bus word ⟨icpu', tmpa, tmpc, true⟩ tmpb (sizeBits word) hblt
      hless hclt
    have hloopfatal := @cordLoop_fatal σ bus (sizeBits word) tmpb (sizeBits word)
      ⟨icpu', tmpa, tmpc, true⟩
    generalize cordLoop bus (sizeBits word) tmpb (sizeBits word) ⟨icpu', tmpa, tmpc, true⟩ = s
      at hr hloop hloopfatal
    have hends : s.icpu.fatal bus = true → r.2.fatal bus = true := by
      intro h
      rw [← hr]
      exact cycles_fatal bus _ (show (Icpu.setFlag _ _ _).fatal bus = true from
        cycles_fatal bus _ h)
    refine ⟨iff_of_true (by rw [← hr]) hless, fun _ hruns q hq => ?_,
      fun h => hends (hloopfatal (hstopped h))⟩
    have hrunning : s.icpu.fatal bus = false := by
      by_contra h
      rw [Bool.not_eq_false] at h
      rw [hends h] at hruns
      exact Bool.false_ne_true hruns.symm
    obtain ⟨hrest, hdigits⟩ := long_division.turns_all hless hclt (hloop hrunning).symm
    rw [hq] at hdigits
    obtain ⟨hlow, -⟩ := @width_rcl1_spec word s.tmpc s.carry
    obtain ⟨-, htop⟩ := @width_rcl1_spec word (width_rcl1 s.tmpc (sizeBits word) s.carry).1
      (width_rcl1 s.tmpc (sizeBits word) s.carry).2
    rw [Nat.add_mod, Nat.mul_mod, Nat.mod_mod, ← Nat.mul_mod, ← Nat.add_mod] at hlow
    change (2 * s.tmpc.toNat + s.carry.toNat) % 2 ^ sizeBits word + _ + 1 = _ at hdigits
    rw [← hlow] at hdigits
    have hra : r.1.a = s.tmpa := by rw [← hr]
    have hrc : r.1.c = (width_rcl1 s.tmpc (sizeBits word) s.carry).1 := by rw [← hr]
    have hrcarry : r.1.carry = (width_rcl1 (width_rcl1 s.tmpc (sizeBits word) s.carry).1
      (sizeBits word) (width_rcl1 s.tmpc (sizeBits word) s.carry).2).2 := by rw [← hr]
    have hfits : (width_rcl1 s.tmpc (sizeBits word) s.carry).1.toNat < 2 ^ sizeBits word := by omega
    rw [hra, hrc, hrcarry, htop, Nat.mod_eq_of_lt hfits, negative, Bool.true_and,
      decide_eq_true_iff]
    exact ⟨hrest, by omega, by omega, by omega⟩
  · have hno : (width_sub tmpa tmpb (sizeBits word)).carry = false := by
      rw [hborrow]
      exact decide_eq_false hless
    rw [hno, if_pos (by decide)] at hr
    refine ⟨iff_of_false (by rw [← hr]; exact Bool.false_ne_true) hless, fun h => ?_, fun h => ?_⟩
    · rw [← hr] at h
      exact absurd h Bool.false_ne_true
    · rw [← hr]
      exact cycle_fatal bus _ (hstopped h)

/-! ## The signs -/

theorem neg_mod (x : BitVec 16) : (0 - x).toNat % 2 ^ sizeBits word =
    (2 ^ sizeBits word - x.toNat % 2 ^ sizeBits word) % 2 ^ sizeBits word := by
  have h := @cpu_808x.negateIf_mod word x true
  have hneg : 0 - x = ~~~x + 1 := (BitVec.zero_sub x).trans (BitVec.neg_eq_not_add x)
  rw [hneg]
  exact h

theorem not_mod (x : BitVec 16) (hx : x.toNat < 2 ^ sizeBits word) :
    (~~~x).toNat % 2 ^ sizeBits word = (2 ^ sizeBits word - 1 - x.toNat) % 2 ^ sizeBits word := by
  have hlt := x.isLt
  rw [BitVec.toNat_not]
  cases word
  · change x.toNat < 2 ^ 8 at hx
    change (2 ^ 16 - 1 - x.toNat) % 2 ^ 8 = (2 ^ 8 - 1 - x.toNat) % 2 ^ 8
    omega
  · rfl

/-- The complement of the dividend, and of a divisor below 0. -/
theorem mul_cor_negate_spec {tmpa tmpb tmpc : BitVec 16}
    (ha : tmpa.toNat < 2 ^ sizeBits word) (hb : tmpb.toNat < 2 ^ sizeBits word)
    (hc : tmpc.toNat < 2 ^ sizeBits word) {skip : Bool}
    (hskip : skip = !negative true (sizeBits word) tmpa.toNat)
    {negate : Bool} {icpu : Icpu σ} {r : MulTmp × Icpu σ}
    (hr : mul_cor_negate_cycles bus (sizeBits word) tmpa tmpb tmpc negate skip icpu = r) :
    r.1.a.toNat % 2 ^ sizeBits word * 2 ^ sizeBits word + r.1.c.toNat % 2 ^ sizeBits word =
        magnitude true (2 * sizeBits word) (tmpa.toNat * 2 ^ sizeBits word + tmpc.toNat) ∧
      r.1.b.toNat % 2 ^ sizeBits word = magnitude true (sizeBits word) tmpb.toNat ∧
      (icpu.fatal bus = true → r.2.fatal bus = true) := by
  have hbits := sizeBits_bounds word
  have hsign := @and_width_sign word tmpb
  rw [Nat.mod_eq_of_lt hb] at hsign
  rw [mul_cor_negate_cycles] at hr
  simp only [hsign] at hr
  -- the divisor is looked at after the dividend, whatever has become of that
  have hdivisor (a' c' : BitVec 16) (negate' : Bool) (icpu' : Icpu σ)
      (hr' : (if !negative true (sizeBits word) tmpb.toNat then
          (⟨a', tmpb, c', negative true (sizeBits word) tmpb.toNat, negate'⟩,
            cycles_mc bus [MC_JUMP, 0x1bf, MC_JUMP] (cycles_mc bus [0x1bb, 0x1bc, 0x1bd] icpu'))
        else (⟨a', 0 - tmpb, c', negative true (sizeBits word) tmpb.toNat, !negate'⟩,
          cycles_mc bus [0x1be, MC_JUMP] (cycles_mc bus [0x1bb, 0x1bc, 0x1bd] icpu'))) = r) :
      r.1.a = a' ∧ r.1.c = c' ∧
        r.1.b.toNat % 2 ^ sizeBits word = magnitude true (sizeBits word) tmpb.toNat ∧
        (icpu'.fatal bus = true → r.2.fatal bus = true) := by
    have hpos := Nat.two_pow_pos (sizeBits word - 1)
    cases hneg : negative true (sizeBits word) tmpb.toNat with
    | false =>
      rw [hneg, if_pos (by decide)] at hr'
      rw [← hr', magnitude, hneg]
      exact ⟨rfl, rfl, Nat.mod_eq_of_lt hb, fun h => cycles_fatal bus _ (cycles_fatal bus _ h)⟩
    | true =>
      rw [hneg, if_neg (by decide)] at hr'
      rw [← hr', magnitude, hneg]
      refine ⟨rfl, rfl, ?_, fun h => cycles_fatal bus _ (cycles_fatal bus _ h)⟩
      rw [negative, Bool.true_and, decide_eq_true_iff] at hneg
      rw [neg_mod, Nat.mod_eq_of_lt hb, Nat.mod_eq_of_lt (by omega), if_pos rfl]
  cases hneg : negative true (sizeBits word) tmpa.toNat with
  | false =>
    rw [hskip, hneg] at hr
    simp only [Bool.not_false, Bool.not_true, Bool.false_eq_true, if_false] at hr
    obtain ⟨hra, hrc, hrb, hstopped⟩ := hdivisor _ _ _ _ hr
    rw [hra, hrc, Nat.mod_eq_of_lt ha, Nat.mod_eq_of_lt hc, magnitude,
      negative_pair (by omega) hc, hneg]
    exact ⟨rfl, hrb, hstopped⟩
  | true =>
    rw [hskip, hneg] at hr
    simp only [Bool.not_false, Bool.not_true, if_true] at hr
    rw [← magnitude_pair (by omega) ha hc hneg]
    have hlow := @neg_mod word tmpc
    rw [Nat.mod_eq_of_lt hc] at hlow
    by_cases h0 : tmpc = 0
    · rw [decide_eq_false (not_not.mpr h0)] at hr
      simp only [Bool.false_eq_true, if_false] at hr
      obtain ⟨hra, hrc, hrb, hstopped⟩ := hdivisor _ _ _ _ hr
      have hzero : tmpc.toNat = 0 := by rw [h0]; rfl
      rw [hra, hrc, hlow, neg_mod, Nat.mod_eq_of_lt ha, hzero, Nat.sub_zero, Nat.mod_self,
        if_pos rfl]
      refine ⟨?_, hrb, fun h => hstopped (cycles_fatal bus _ h)⟩
      congr 3
      omega
    · rw [decide_eq_true h0] at hr
      simp only [if_true] at hr
      obtain ⟨hra, hrc, hrb, hstopped⟩ := hdivisor _ _ _ _ hr
      have hpos : 0 < tmpc.toNat := Nat.pos_of_ne_zero fun h => h0 (BitVec.eq_of_toNat_eq h)
      rw [hra, hrc, hlow, not_mod tmpa ha, if_neg (by rw [Nat.mod_eq_of_lt (by omega)]; omega),
        Nat.add_zero]
      exact ⟨rfl, hrb, fun h => hstopped (cycles_fatal bus _ h)⟩

/-- The dividend and the divisor that CORD gets have no sign. -/
theorem pre_idiv_spec {tmpa tmpb tmpc : BitVec 16}
    (ha : tmpa.toNat < 2 ^ sizeBits word) (hb : tmpb.toNat < 2 ^ sizeBits word)
    (hc : tmpc.toNat < 2 ^ sizeBits word) {negate : Bool} {icpu : Icpu σ} {r : MulTmp × Icpu σ}
    (hr : pre_idiv_cycles bus (sizeBits word) tmpa tmpb tmpc negate icpu = r) :
    r.1.a.toNat % 2 ^ sizeBits word * 2 ^ sizeBits word + r.1.c.toNat % 2 ^ sizeBits word =
        magnitude true (2 * sizeBits word) (tmpa.toNat * 2 ^ sizeBits word + tmpc.toNat) ∧
      r.1.b.toNat % 2 ^ sizeBits word = magnitude true (sizeBits word) tmpb.toNat ∧
      (icpu.fatal bus = true → r.2.fatal bus = true) := by
  obtain ⟨-, hcarry⟩ := @width_rcl1_spec word tmpa false
  rw [Nat.mod_eq_of_lt ha] at hcarry
  rw [pre_idiv_cycles] at hr
  simp only [hcarry] at hr
  cases hneg : negative true (sizeBits word) tmpa.toNat with
  | true =>
    rw [hneg, if_neg (by decide)] at hr
    obtain ⟨hdividend, hdivisor, hstopped⟩ :=
      mul_cor_negate_spec bus ha hb hc (by rw [hneg]; rfl) hr
    exact ⟨hdividend, hdivisor, fun h => hstopped (cycles_fatal bus _ h)⟩
  | false =>
    rw [hneg, if_pos (by decide)] at hr
    obtain ⟨hdividend, hdivisor, hstopped⟩ :=
      mul_cor_negate_spec bus ha hb hc (by rw [hneg]; rfl) hr
    exact ⟨hdividend, hdivisor, fun h => hstopped (cycle_fatal bus _ (cycles_fatal bus _ h))⟩

/-! ## The routine -/

theorem post_idiv_spec (bits : Nat) (tmpa tmpb tmpc : BitVec 16) (carry negate : Bool)
    (icpu : Icpu σ) :
    let r := post_idiv_cycles bus bits tmpa tmpb tmpc carry negate icpu
    r.1.ok = carry ∧ (icpu.fatal bus = true → r.2.fatal bus = true) := by
  intro r
  have hr : post_idiv_cycles bus bits tmpa tmpb tmpc carry negate icpu = r := rfl
  unfold post_idiv_cycles at hr
  simp only [] at hr
  cases carry with
  | false =>
    rw [if_pos (by decide)] at hr
    rw [← hr]
    exact ⟨rfl, fun h => cycle_fatal bus _ (cycle_fatal bus _ h)⟩
  | true =>
    rw [if_neg (by decide)] at hr
    rw [← hr]
    refine ⟨rfl, fun h => cycles_fatal bus _ ?_⟩
    -- the flags do not stop a core, and each choice before them is between two cycles
    have hfirst := cycles_fatal bus [0x1c5, 0x1c6, 0x1c7] (cycle_fatal bus 0x1c4 h)
    change (Prod.snd (if !negate then _ else _ : BitVec 16 × Icpu σ)).fatal bus = true
    split <;> refine cycle_fatal bus _ (cycles_fatal bus _ ?_) <;> split <;>
      exact cycle_fatal bus _ hfirst

/-- After CORD the routine fails for a quotient with a digit at the top, if it is signed. -/
theorem afterCord_spec (bits : Nat) (dividend : BitVec 32) (signed_op negate : Bool)
    (cord : CordResult) (icpu : Icpu σ) :
    let r := afterCord bus bits dividend signed_op negate cord icpu
    (r.1 = true ↔ r.2.fatal bus = false ∧ cord.ok = true ∧
      (signed_op = true → cord.carry = true)) ∧
    (icpu.fatal bus = true → r.2.fatal bus = true) := by
  intro r
  have hr : afterCord bus bits dividend signed_op negate cord icpu = r := rfl
  unfold afterCord at hr
  have hstopped (lines : List (BitVec 16)) (h : icpu.fatal bus = true) :=
    cycles_fatal bus lines h
  simp only [] at hr
  cases hok : cord.ok with
  | false =>
    rw [hok, if_pos (by decide)] at hr
    rw [← hr]
    refine ⟨iff_of_false Bool.false_ne_true fun h => Bool.false_ne_true h.2.1, fun h => h⟩
  | true =>
    rw [hok, if_neg (by decide)] at hr
    cases signed_op with
    | false =>
      rw [if_neg Bool.false_ne_true] at hr
      rw [← hr]
      refine ⟨?_, hstopped _⟩
      simp only [Bool.not_eq_true', Bool.false_eq_true, false_implies, and_true]
    | true =>
      rw [if_pos rfl] at hr
      obtain ⟨hpost, hpoststopped⟩ := post_idiv_spec bus bits cord.a (dividendHigh bits dividend)
        cord.c cord.carry negate (biu_cycle_i bus MC_JUMP (cycles_mc bus
          [if bits = 8 then 0x164 else 0x16c, if bits = 8 then 0x165 else 0x16d] icpu))
      generalize post_idiv_cycles bus bits cord.a (dividendHigh bits dividend) cord.c cord.carry
        negate (biu_cycle_i bus MC_JUMP (cycles_mc bus
          [if bits = 8 then 0x164 else 0x16c, if bits = 8 then 0x165 else 0x16d] icpu)) = post
        at hr hpost hpoststopped
      have hends (h : icpu.fatal bus = true) := hpoststopped (cycle_fatal bus _ (hstopped _ h))
      rw [hpost] at hr
      cases hcarry : cord.carry with
      | false =>
        rw [hcarry, if_pos (by decide)] at hr
        rw [← hr]
        exact ⟨iff_of_false Bool.false_ne_true fun h => Bool.false_ne_true (h.2.2 rfl), hends⟩
      | true =>
        rw [hcarry, if_neg (by decide)] at hr
        rw [← hr]
        refine ⟨?_, hends⟩
        simp only [Bool.not_eq_true', implies_true, and_true]

theorem dividendHigh_toNat (dividend : BitVec 32) :
    (dividendHigh (sizeBits word) dividend).toNat =
      dividend.toNat % 2 ^ (2 * sizeBits word) / 2 ^ sizeBits word := by
  have hlt := dividend.isLt
  cases word
  · change ((dividend >>> 8 &&& 0xff).setWidth 16).toNat = dividend.toNat % 2 ^ 16 / 2 ^ 8
    have hmask : (dividend >>> 8 &&& 0xff).toNat = (dividend >>> 8).toNat % 2 ^ 8 :=
      (BitVec.toNat_and ..).trans (Nat.and_two_pow_sub_one_eq_mod _ 8)
    rw [BitVec.toNat_setWidth, hmask, BitVec.toNat_ushiftRight, Nat.shiftRight_eq_div_pow]
    omega
  · change ((dividend >>> 16).setWidth 16).toNat = dividend.toNat % 2 ^ 32 / 2 ^ 16
    rw [BitVec.toNat_setWidth, BitVec.toNat_ushiftRight, Nat.shiftRight_eq_div_pow]
    omega

theorem dividendLow_toNat (dividend : BitVec 32) :
    (dividend.setWidth 16 &&& width_mask (sizeBits word)).toNat =
      dividend.toNat % 2 ^ (2 * sizeBits word) % 2 ^ sizeBits word := by
  rw [and_width_mask, BitVec.toNat_setWidth]
  cases word
  · change dividend.toNat % 2 ^ 16 % 2 ^ 8 = dividend.toNat % 2 ^ 16 % 2 ^ 8
    rfl
  · change dividend.toNat % 2 ^ 16 % 2 ^ 16 = dividend.toNat % 2 ^ 32 % 2 ^ 16
    omega

/-- The routine from CORD on, for operands without a sign. -/
theorem fromCord_spec {tmpa tmpb tmpc : BitVec 16} {x y : Nat}
    (hx : tmpa.toNat % 2 ^ sizeBits word * 2 ^ sizeBits word + tmpc.toNat % 2 ^ sizeBits word = x)
    (hy : tmpb.toNat % 2 ^ sizeBits word = y) (dividend : BitVec 32) (signed_op negate : Bool)
    (icpu : Icpu σ) {cord : CordResult × Icpu σ} {r : Bool × Icpu σ}
    (hcord : cord_cycles bus (sizeBits word) tmpa tmpb tmpc icpu = cord)
    (hr : afterCord bus (sizeBits word) dividend signed_op negate cord.1 cord.2 = r) :
    r.1 = true ↔ r.2.fatal bus = false ∧
      ¬(y = 0 ∨ 2 ^ (if signed_op then sizeBits word - 1 else sizeBits word) ≤ x / y) := by
  obtain ⟨hok, hdivides, -⟩ := cord_spec bus rfl hy rfl hcord
  obtain ⟨hafter, hstopped⟩ := afterCord_spec bus (sizeBits word) dividend signed_op negate
    cord.1 cord.2
  rw [hr] at hafter hstopped
  rw [hx] at hdivides
  rw [hafter, hok]
  refine and_congr_right fun hruns => ?_
  have hrunning : cord.2.fatal bus = false := by
    by_contra h
    rw [Bool.not_eq_false] at h
    exact Bool.false_ne_true (hruns.symm.trans (hstopped h))
  -- the upper half is less than the divisor exactly if the quotient has `sizeBits word` digits
  have hfits : tmpa.toNat % 2 ^ sizeBits word < y ↔ ¬(y = 0 ∨ 2 ^ sizeBits word ≤ x / y) := by
    have hc := Nat.mod_lt tmpc.toNat (Nat.two_pow_pos (sizeBits word))
    rcases Nat.eq_zero_or_pos y with h0 | hpos
    · exact iff_of_false (by omega) fun h => h (Or.inl h0)
    · have hle := Nat.le_div_iff_mul_le (x := 2 ^ sizeBits word) (y := x) hpos
      rw [Nat.mul_comm] at hle
      constructor
      · rintro hlt (h0 | hq)
        · omega
        · have hmul := hle.mp hq
          have hup : (tmpa.toNat % 2 ^ sizeBits word + 1) * 2 ^ sizeBits word ≤
            y * 2 ^ sizeBits word := Nat.mul_le_mul_right _ hlt
          rw [Nat.add_mul, Nat.one_mul] at hup
          omega
      · intro h
        by_contra hge
        have hup : y * 2 ^ sizeBits word ≤ tmpa.toNat % 2 ^ sizeBits word * 2 ^ sizeBits word :=
          Nat.mul_le_mul_right _ (Nat.le_of_not_lt hge)
        exact h (Or.inr (hle.mpr (by omega)))
  cases signed_op with
  | false =>
    simp only [Bool.false_eq_true, false_implies, and_true, if_false]
    exact hfits
  | true =>
    simp only [true_implies, if_true]
    constructor
    · rintro ⟨hlt, hcarry⟩ (h0 | hq)
      · omega
      · obtain ⟨-, -, -, hsmall⟩ := hdivides (hok.mpr hlt) hrunning _ rfl
        exact absurd (hsmall.mp hcarry) (Nat.not_lt.mpr hq)
    · intro h
      have hhalf : 2 ^ (sizeBits word - 1) ≤ 2 ^ sizeBits word :=
        Nat.pow_le_pow_right (by decide) (by omega)
      have hlt := hfits.mpr fun hno => h (hno.imp id fun hq => hhalf.trans hq)
      obtain ⟨-, -, -, hsmall⟩ := hdivides (hok.mpr hlt) hrunning _ rfl
      exact ⟨hlt, hsmall.mpr (Nat.lt_of_not_le fun hq => h (Or.inr hq))⟩

/-- The microcode takes a division exactly where the quotient has a word, for as long as the core
goes on, and CORD leaves the remainder and the quotient. -/
theorem microcode_divides_where_the_quotient_has_a_word (bus : Bus σ) (word : Bool)
    (icpu : Icpu σ) :
    (∀ tmpa tmpb tmpc : BitVec 16,
      let r := cord_cycles bus (sizeBits word) tmpa tmpb tmpc icpu
      let a := tmpa.toNat % 2 ^ sizeBits word
      let divisor := tmpb.toNat % 2 ^ sizeBits word
      let dividend := a * 2 ^ sizeBits word + tmpc.toNat % 2 ^ sizeBits word
      (r.1.ok = true ↔ a < divisor) ∧
        (r.1.ok = true → r.2.fatal bus = false →
          r.1.a.toNat = dividend % divisor ∧
            (~~~r.1.c &&& width_mask (sizeBits word)).toNat = dividend / divisor)) ∧
    (∀ (dividend : BitVec 32) (divisor : BitVec 16) (signed_op negate : Bool),
      let r := div_microcode_cycles bus (sizeBits word) dividend divisor signed_op negate icpu
      r.1 = true ↔ r.2.fatal bus = false ∧
        ¬NoQuotient signed_op (sizeBits word)
          (reading signed_op (2 * sizeBits word) (dividend.toNat % 2 ^ (2 * sizeBits word)))
          (reading signed_op (sizeBits word) (divisor.toNat % 2 ^ sizeBits word))) := by
  have hbits := sizeBits_bounds word
  constructor
  · intro tmpa tmpb tmpc r a divisor dividend
    obtain ⟨hok, hdivides, -⟩ :=
      @cord_spec σ bus word tmpa tmpb tmpc a divisor _ rfl rfl rfl icpu r rfl
    refine ⟨hok, fun h hruns => ?_⟩
    generalize hq : dividend / divisor = q
    obtain ⟨hrest, hquotient, hlt, -⟩ := hdivides h hruns q hq
    refine ⟨hrest, ?_⟩
    rw [and_width_mask, not_mod _ (by omega), hquotient, Nat.mod_eq_of_lt (by omega)]
    omega
  · intro dividend divisor signed_op negate r
    have hD : dividend.toNat % 2 ^ (2 * sizeBits word) < 2 ^ (2 * sizeBits word) :=
      Nat.mod_lt _ (Nat.two_pow_pos _)
    have hd : divisor.toNat % 2 ^ sizeBits word < 2 ^ sizeBits word :=
      Nat.mod_lt _ (Nat.two_pow_pos _)
    have hhigh := @dividendHigh_toNat word dividend
    have hlow := @dividendLow_toNat word dividend
    have hdivisor := @and_width_mask word divisor
    have hr : div_microcode_cycles bus (sizeBits word) dividend divisor signed_op negate icpu = r :=
      rfl
    have hsplit := Nat.div_add_mod (dividend.toNat % 2 ^ (2 * sizeBits word)) (2 ^ sizeBits word)
    rw [Nat.mul_comm, ← hhigh, ← hlow] at hsplit
    rw [reading_eq hD, reading_eq hd, noQuotient_iff]
    have hhighlt : (dividendHigh (sizeBits word) dividend).toNat < 2 ^ sizeBits word := by
      rw [hhigh, Nat.div_lt_iff_lt_mul (Nat.two_pow_pos _), ← Nat.pow_add, ← Nat.two_mul]
      exact hD
    have hlowlt : (dividend.setWidth 16 &&& width_mask (sizeBits word)).toNat < 2 ^ sizeBits word :=
      hlow.trans_lt (Nat.mod_lt _ (Nat.two_pow_pos _))
    unfold div_microcode_cycles at hr
    simp only [] at hr
    cases signed_op with
    | false =>
      refine fromCord_spec bus ?_ ?_ dividend false negate _ rfl hr
      · change (dividendHigh _ dividend).toNat % _ * _ + (_ &&& _ : BitVec 16).toNat % _ = _
        rw [Nat.mod_eq_of_lt hhighlt, Nat.mod_eq_of_lt hlowlt, hsplit]
        rfl
      · change (divisor &&& width_mask _).toNat % _ = _
        rw [hdivisor, Nat.mod_mod]
        rfl
    | true =>
      obtain ⟨hx, hy, -⟩ := @pre_idiv_spec σ bus word _ _ _ hhighlt (hdivisor.trans_lt hd) hlowlt
        negate _ _ rfl
      rw [hsplit] at hx
      rw [hdivisor] at hy
      exact fromCord_spec bus hx hy dividend true _ _ rfl hr

end

structure Cycles where
  cycle_num : BitVec 64
  fatal : Bool

/-- Cycles that have nothing to do on the bus. At `cycle_limit` the core stops. -/
def idleBus (cycle_limit : BitVec 64) : Bus Cycles where
  biu_cycle_i _ c :=
    if c.cycle_num ≥ cycle_limit then { c with fatal := true }
    else { c with cycle_num := c.cycle_num + 1 }
  fatal := Cycles.fatal
  fatal_stays _ c h := by
    split_ifs
    · rfl
    · exact h

/-- -100 by 7 takes 105 cycles: it is taken, but not by a core that stops after 100. -/
theorem minus_100_by_7 :
    (div_microcode_cycles (idleBus (-1)) 8 0xff9c 7 true false ⟨0, 0, false⟩).1 = true ∧
      (div_microcode_cycles (idleBus 100) 8 0xff9c 7 true false ⟨0, 0, false⟩).1 = false := by
  constructor
  · refine ((microcode_divides_where_the_quotient_has_a_word (idleBus (-1)) false ⟨0, 0, false⟩).2
      0xff9c 7 true false).mpr ⟨by decide +kernel, ?_⟩
    unfold NoQuotient
    decide +kernel
  · refine Bool.eq_false_of_not_eq_true fun htaken => ?_
    have hruns := ((microcode_divides_where_the_quotient_has_a_word (idleBus 100) false
      ⟨0, 0, false⟩).2 0xff9c 7 true false).mp htaken
    exact absurd hruns.1 (by decide +kernel)

end blumach.m808x
