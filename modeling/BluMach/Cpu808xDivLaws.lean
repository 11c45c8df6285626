-- The laws of the 808x division: its loop is a long division with the digits of the quotient turned
-- over, and the interrupt comes where the quotient has no word.
import BluMach.Cpu808xMulLaws
import BluMach.LongDivision

namespace blumach.cpu_808x

open arith_flags x86_flags signed_words

/-! ## The loop of the division -/

/-- The registers of the loop, as a long division has them. -/
def DivLoop.state (word : Bool) (d : DivLoop) : long_division.State :=
  ⟨d.h.toNat, d.l.toNat % 2 ^ sizeBits word, d.carry⟩

section

variable {word : Bool} {d : DivLoop} {src : BitVec 32}

theorem bitOf_toNat (cond : Bool) : (bitOf cond).toNat = cond.toNat := by cases cond <;> rfl

theorem shifted_in (x : BitVec 16) (cond : Bool) :
    (x <<< 1 + bitOf cond).toNat = (2 * x.toNat + cond.toNat) % 2 ^ 16 := by
  rw [BitVec.toNat_add, BitVec.toNat_shiftLeft, bitOf_toNat, Nat.shiftLeft_eq, Nat.mod_add_mod,
    Nat.pow_one, Nat.mul_comm]

theorem takeOff_toNat (h : BitVec 16) (hsrc : src.toNat < 2 ^ 16) :
    (takeOff h src).toNat = (h.toNat + 2 ^ 16 - src.toNat) % 2 ^ 16 := by
  have hh := h.isLt
  rw [takeOff, BitVec.toNat_setWidth, BitVec.toNat_sub, BitVec.toNat_setWidth]
  omega

/-- The register of the digits, as wide as the operands are. -/
theorem shifted_digits (l : BitVec 16) (carry : Bool) :
    (l <<< 1 + bitOf carry).toNat % 2 ^ sizeBits word =
      (2 * (l.toNat % 2 ^ sizeBits word) + carry.toNat) % 2 ^ sizeBits word := by
  rw [shifted_in]
  cases word
  · change (2 * l.toNat + carry.toNat) % 2 ^ 16 % 2 ^ 8 =
      (2 * (l.toNat % 2 ^ 8) + carry.toNat) % 2 ^ 8
    omega
  · change (2 * l.toNat + carry.toNat) % 2 ^ 16 % 2 ^ 16 =
      (2 * (l.toNat % 2 ^ 16) + carry.toNat) % 2 ^ 16
    omega

/-- The digit that goes out of it. -/
theorem top_digit (l : BitVec 16) :
    (top_bit l (sizeBits word)).toNat = l.toNat % 2 ^ sizeBits word / 2 ^ (sizeBits word - 1) := by
  have hl := l.isLt
  have hdecide : (decide (l.toNat / 2 ^ (sizeBits word - 1) % 2 = 1)).toNat =
      l.toNat / 2 ^ (sizeBits word - 1) % 2 := by
    rcases Nat.mod_two_eq_zero_or_one (l.toNat / 2 ^ (sizeBits word - 1)) with h | h
    · rw [h]
      rfl
    · rw [h]
      rfl
  rw [top_bit_toNat, hdecide]
  cases word
  · change l.toNat / 2 ^ 7 % 2 = l.toNat % 2 ^ 8 / 2 ^ 7
    omega
  · change l.toNat / 2 ^ 15 % 2 = l.toNat % 2 ^ 16 / 2 ^ 15
    omega

/-- A turn of the loop is a turn of the long division. -/
theorem divTurn_spec (hsrc : src.toNat < 2 ^ sizeBits word) (hh : d.h.toNat < src.toNat) :
    (divTurn (sizeBits word) src d).state word =
      long_division.turn (sizeBits word) src.toNat (d.state word) := by
  obtain ⟨hsize, hle⟩ := two_pow_size word
  have htop := Bool.toNat_le (top_bit d.l (sizeBits word))
  have hnext : (d.state word).next (sizeBits word) =
      2 * d.h.toNat + (top_bit d.l (sizeBits word)).toNat := by
    rw [top_digit]
    rfl
  have hh' := shifted_in d.h (top_bit d.l (sizeBits word))
  have hover : top_bit d.h (sizeBits word) = true ↔ 2 ^ (sizeBits word - 1) ≤ d.h.toNat := by
    rw [top_bit_toNat, decide_eq_true_iff]
    have hlt : d.h.toNat / 2 ^ (sizeBits word - 1) < 2 := by
      rw [Nat.div_lt_iff_lt_mul (Nat.two_pow_pos _)]
      omega
    rw [Nat.mod_eq_of_lt hlt, ← Nat.one_le_div_iff (Nat.two_pow_pos _)]
    omega
  unfold long_division.turn divTurn
  rw [hnext]
  simp only [DivLoop.state, ← shifted_digits]
  generalize (top_bit d.l (sizeBits word)).toNat = digit at *
  generalize hx : d.h <<< 1 + bitOf (top_bit d.l (sizeBits word)) = x at *
  have hx32 : (x.setWidth 32).toNat = x.toNat := by
    rw [BitVec.toNat_setWidth, Nat.mod_eq_of_lt (x.isLt.trans (by decide))]
  have hsrc16 : src.toNat < 2 ^ 16 := by omega
  by_cases hh7 : top_bit d.h (sizeBits word) = true
  · have hbig := hover.mp hh7
    have hgoes : src.toNat ≤ 2 * d.h.toNat + digit := by omega
    rw [if_pos hh7, if_pos hgoes]
    ext1
    · change (takeOff x src).toNat = 2 * d.h.toNat + digit - src.toNat
      rw [takeOff_toNat x hsrc16, hh']
      omega
    · rfl
    · simp only [hgoes, not_true, decide_false]
  · have hsmall : ¬2 ^ (sizeBits word - 1) ≤ d.h.toNat := fun h => hh7 (hover.mpr h)
    rw [Nat.mod_eq_of_lt (by omega)] at hh'
    rw [if_neg hh7]
    by_cases hgoes : src.toNat ≤ 2 * d.h.toNat + digit
    · have hnot : ¬src > x.setWidth 32 := by
        rw [gt_iff_lt, BitVec.lt_def, hx32]
        omega
      rw [if_neg hnot, if_pos hgoes]
      ext1
      · change (takeOff x src).toNat = 2 * d.h.toNat + digit - src.toNat
        rw [takeOff_toNat x hsrc16, hh']
        omega
      · rfl
      · simp only [hgoes, not_true, decide_false]
    · have hgt : src > x.setWidth 32 := by
        rw [gt_iff_lt, BitVec.lt_def, hx32]
        omega
      rw [if_pos hgt, if_neg hgoes]
      ext1
      · exact hh'
      · rfl
      · simp only [hgoes, not_false_eq_true, decide_true]

/-- So are all of its turns. -/
theorem divTurns_spec {l h : BitVec 16} (hsrc : src.toNat < 2 ^ sizeBits word)
    (hh : h.toNat < src.toNat) {k : Nat} (hk : k ≤ sizeBits word) :
    ((divTurn (sizeBits word) src)^[k] ⟨l, h, true⟩).state word =
      (long_division.turn (sizeBits word) src.toNat)^[k]
        ⟨h.toNat, l.toNat % 2 ^ sizeBits word, true⟩ := by
  induction k with
  | zero => rfl
  | succ k ih =>
    have hbefore := ih (by omega)
    have hdivided := long_division.divided_turns hh
      (Nat.mod_lt l.toNat (Nat.two_pow_pos (sizeBits word))) (by omega : k ≤ sizeBits word)
    have hrest := hdivided.rest_lt (Nat.zero_lt_of_lt hh)
    rw [← hbefore] at hrest
    rw [Function.iterate_succ_apply', Function.iterate_succ_apply', ← hbefore]
    exact divTurn_spec hsrc hrest

/-- After the loop: the remainder, and in the complement of the digits the quotient. -/
theorem div_loop {l h : BitVec 16} (hsrc : src.toNat < 2 ^ sizeBits word)
    (hh : h.toNat < src.toNat) {d : DivLoop}
    (hd : (divTurn (sizeBits word) src)^[sizeBits word] ⟨l, h, true⟩ = d) :
    let dividend := h.toNat * 2 ^ sizeBits word + l.toNat % 2 ^ sizeBits word
    d.h.toNat = dividend % src.toNat ∧
      (~~~(d.l <<< 1 + bitOf d.carry)).toNat % 2 ^ sizeBits word = dividend / src.toNat ∧
      dividend / src.toNat < 2 ^ sizeBits word := by
  intro dividend
  have hstate := divTurns_spec (l := l) hsrc hh (Nat.le_refl (sizeBits word))
  rw [hd] at hstate
  obtain ⟨hrest, hdigits⟩ := long_division.turns_all hh
    (Nat.mod_lt l.toNat (Nat.two_pow_pos (sizeBits word))) hstate.symm
  have hregister := @shifted_digits word d.l d.carry
  change (2 * (d.l.toNat % 2 ^ sizeBits word) + d.carry.toNat) % 2 ^ sizeBits word +
    dividend / src.toNat + 1 = 2 ^ sizeBits word at hdigits
  rw [← hregister] at hdigits
  refine ⟨hrest, ?_, by omega⟩
  have hnot := BitVec.toNat_not (x := d.l <<< 1 + bitOf d.carry)
  have hlt := (d.l <<< 1 + bitOf d.carry).isLt
  rw [hnot]
  generalize (d.l <<< 1 + bitOf d.carry).toNat = digits at *
  generalize dividend / src.toNat = q at *
  cases word
  · change digits % 2 ^ 8 + q + 1 = 2 ^ 8 at hdigits
    change (2 ^ 16 - 1 - digits) % 2 ^ 8 = q
    omega
  · change digits % 2 ^ 16 + q + 1 = 2 ^ 16 at hdigits
    change (2 ^ 16 - 1 - digits) % 2 ^ 16 = q
    omega

end

/-! ## The division -/

section

variable {word signed : Bool} (m : Machine)

/-- The dividend below 0. -/
theorem dividend_negative {h : BitVec 16} (hh : h.toNat = m.upper word) :
    (signed && top_bit h (sizeBits word)) = negative signed (2 * sizeBits word) (m.wide word) := by
  have hbits : 0 < sizeBits word := Nat.lt_of_lt_of_le (by decide) (sizeBits_bounds word).1
  rw [top_bit_negative, hh, Nat.mod_eq_of_lt (upper_lt m), ← negative_pair hbits (lower_lt m),
    ← wide_eq]

/-- The dividend that the loop gets has no sign. -/
theorem negateWide_spec {l h : BitVec 16} {negates : Bool} (hl : l.toNat = m.lower word)
    (hh : h.toNat = m.upper word)
    (hneg : negative signed (2 * sizeBits word) (m.wide word) = negates) :
    let pair := if negates then negateWide (sizeBits word) l h else (l, h)
    pair.1.toNat < 2 ^ sizeBits word ∧
      pair.2.toNat * 2 ^ sizeBits word + pair.1.toNat =
        magnitude signed (2 * sizeBits word) (m.wide word) := by
  have hwide := @wide_eq word m
  have hlt := @wide_lt word m
  have hlower := @lower_lt word m
  have hupper := @upper_lt word m
  intro pair
  rw [magnitude, hneg]
  cases negates with
  | false =>
    change l.toNat < _ ∧ h.toNat * _ + l.toNat = _
    rw [hl, hh]
    exact ⟨hlower, hwide.symm⟩
  | true =>
    have hwidepos : 0 < m.wide word := by
      have hpos := Nat.two_pow_pos (2 * sizeBits word - 1)
      simp only [negative, Bool.and_eq_true, decide_eq_true_eq] at hneg
      omega
    have hlow : ((~~~l + 1) &&& sizeMask (sizeBits word)).toNat =
        (2 ^ sizeBits word - m.lower word) % 2 ^ sizeBits word := by
      have h := @negateIf_mod word l true
      rw [hl, Nat.mod_eq_of_lt hlower] at h
      rw [and_sizeMask]
      exact h
    change ((~~~l + 1) &&& sizeMask (sizeBits word)).toNat < _ ∧
      ((if (~~~l + 1) &&& sizeMask (sizeBits word) = 0 then ~~~h + 1 else ~~~h) &&&
          sizeMask (sizeBits word)).toNat * _ + ((~~~l + 1) &&& sizeMask (sizeBits word)).toNat = _
    generalize (~~~l + 1) &&& sizeMask (sizeBits word) = low at hlow ⊢
    rw [and_sizeMask, not_with_carry (by rwa [hh]), hlow, hh]
    refine ⟨Nat.mod_lt _ (Nat.two_pow_pos _), ?_⟩
    rw [complement_pair hupper hlower, ← hwide, if_pos rfl, Nat.mod_eq_of_lt (by omega)]

/-- Nor has the divisor. -/
theorem divisor_spec (ea : BitVec 16) {negates : Bool}
    (hneg : negative signed (sizeBits word) (ea.toNat % 2 ^ sizeBits word) = negates) :
    let src : BitVec 32 := (sized word ea).setWidth 32
    ((if negates then ~~~src + 1 else src) &&& size_mask (sizeBits word)).toNat =
      magnitude signed (sizeBits word) (ea.toNat % 2 ^ sizeBits word) := by
  intro src
  have hsrc : src.toNat = (sized word ea).toNat := by
    rw [BitVec.toNat_setWidth, Nat.mod_eq_of_lt ((sized word ea).isLt.trans (by decide))]
  have hmask (x : BitVec 32) :
      (x &&& size_mask (sizeBits word)).toNat = x.toNat % 2 ^ sizeBits word := by
    have hbits := sizeBits_bounds word
    have hlt := (x.setWidth (sizeBits word)).isLt
    have hpow : 2 ^ sizeBits word ≤ 2 ^ 32 := Nat.pow_le_pow_right (by decide) (by omega)
    rw [and_size_mask, BitVec.toNat_setWidth, Nat.mod_eq_of_lt (by omega), BitVec.toNat_setWidth]
  have hsized := @sized_mod word ea
  rw [hmask, magnitude, hneg]
  cases negates with
  | false =>
    rw [if_neg Bool.false_ne_true, if_neg Bool.false_ne_true, hsrc, hsized]
  | true =>
    have hpos := Nat.two_pow_pos (sizeBits word - 1)
    have hlt := (sized word ea).isLt
    simp only [negative, Bool.and_eq_true, decide_eq_true_eq] at hneg
    have hnot : (~~~src + 1).toNat = (2 ^ 32 - src.toNat) % 2 ^ 32 := by
      rw [show ~~~src + 1 = -src from (BitVec.neg_eq_not_add src).symm, BitVec.toNat_neg]
    rw [if_pos rfl, if_pos rfl, hnot, hsrc, ← hsized]
    rw [← hsized] at hneg
    cases word
    · change (2 ^ 32 - (sized false ea).toNat) % 2 ^ 32 % 2 ^ 8 =
        2 ^ 8 - (sized false ea).toNat % 2 ^ 8
      change _ ∧ 2 ^ 7 ≤ (sized false ea).toNat % 2 ^ 8 at hneg
      omega
    · change (2 ^ 32 - (sized true ea).toNat) % 2 ^ 32 % 2 ^ 16 =
        2 ^ 16 - (sized true ea).toNat % 2 ^ 16
      change _ ∧ 2 ^ 15 ≤ (sized true ea).toNat % 2 ^ 16 at hneg
      omega

theorem lower_toNat :
    (if word then m.AX else m.AL.setWidth 16).toNat = m.lower word := by
  have hAX := m.AX.isLt
  cases word
  · change ((m.AX.setWidth 8).setWidth 16).toNat = m.AX.toNat % 2 ^ 8
    rw [BitVec.toNat_setWidth, BitVec.toNat_setWidth]
    omega
  · change m.AX.toNat = (m.DX.toNat * 2 ^ 16 + m.AX.toNat) % 2 ^ 16
    omega

theorem upper_toNat :
    (if word then m.DX else m.AH.setWidth 16).toNat = m.upper word := by
  have hAX := m.AX.isLt
  cases word
  · change (((m.AX >>> 8).setWidth 8).setWidth 16).toNat = m.AX.toNat / 2 ^ 8
    rw [BitVec.toNat_setWidth, BitVec.toNat_setWidth, BitVec.toNat_ushiftRight,
      Nat.shiftRight_eq_div_pow]
    omega
  · change m.DX.toNat = (m.DX.toNat * 2 ^ 16 + m.AX.toNat) / 2 ^ 16
    omega

/-- The registers that a division leaves. -/
theorem setQuotient_spec {opcode : BitVec 8} (hword : isWord opcode = word) (hop : opcode ≠ 0xd4)
    (l h : BitVec 16) :
    let m' := setQuotient opcode l h m
    m'.lower word = l.toNat % 2 ^ sizeBits word ∧ m'.upper word = h.toNat % 2 ^ sizeBits word ∧
      m'.interrupts = m.interrupts ∧ (word = false → m'.DX = m.DX) := by
  intro m'
  have hm' : m' = if word then { m with AX := l, DX := h }
      else { m with AX := h.setWidth 8 ++ l.setWidth 8 } := by
    change setQuotient opcode l h m = _
    rw [setQuotient, if_neg hop, hword]
  have hlt := l.isLt
  have hht := h.isLt
  rw [hm']
  cases word with
  | false =>
    have hAX : (h.setWidth 8 ++ l.setWidth 8 : BitVec 16).toNat =
        h.toNat % 2 ^ 8 * 2 ^ 8 + l.toNat % 2 ^ 8 := by
      rw [BitVec.toNat_append, BitVec.toNat_setWidth, BitVec.toNat_setWidth, Nat.shiftLeft_eq,
        ← Nat.mul_comm (2 ^ 8), Nat.two_pow_add_eq_or_of_lt (Nat.mod_lt _ (by decide))]
    refine ⟨?_, ?_, rfl, fun _ => rfl⟩
    · change (h.setWidth 8 ++ l.setWidth 8 : BitVec 16).toNat % 2 ^ 8 = l.toNat % 2 ^ 8
      rw [hAX]
      omega
    · change (h.setWidth 8 ++ l.setWidth 8 : BitVec 16).toNat / 2 ^ 8 = h.toNat % 2 ^ 8
      rw [hAX]
      omega
  | true =>
    refine ⟨?_, ?_, rfl, nofun⟩
    · change (h.toNat * 2 ^ 16 + l.toNat) % 2 ^ 16 = l.toNat % 2 ^ 16
      omega
    · change (h.toNat * 2 ^ 16 + l.toNat) / 2 ^ 16 = h.toNat % 2 ^ 16
      omega

/-- The division of two magnitudes, and the fix-up of the signs `c` and `e` of the operands. -/
def finishDivision (opcode : BitVec 8) (word signed c e : Bool) (l h : BitVec 16) (src : BitVec 32)
    (m : Machine) : Machine :=
  if h.setWidth 32 ≥ src then interrupt 0 m
  else
    let d := (divTurn (sizeBits word) src)^[sizeBits word] ⟨l, h, true⟩
    let l := ~~~(d.l <<< 1 + bitOf d.carry)
    if signed && top_bit l (sizeBits word) then interrupt 0 m
    else setQuotient opcode (negateIf (c ^^ e) l) (negateIf c d.h) m

theorem finishDivision_spec {opcode : BitVec 8} (hword : isWord opcode = word) (hop : opcode ≠ 0xd4)
    {c e : Bool} (hc : signed = false → c = false ∧ e = false) {l h : BitVec 16} {src : BitVec 32}
    {dividend : Nat} (hl : l.toNat < 2 ^ sizeBits word)
    (hdividend : h.toNat * 2 ^ sizeBits word + l.toNat = dividend)
    (hsrc : src.toNat < 2 ^ sizeBits word)
    (hroom : signed = true → src.toNat ≤ 2 ^ (sizeBits word - 1)) :
    let m' := finishDivision opcode word signed c e l h src m
    let none := src.toNat = 0 ∨
      2 ^ (if signed then sizeBits word - 1 else sizeBits word) ≤ dividend / src.toNat
    (none → m' = interrupt 0 m) ∧
      (¬none → m'.interrupts = m.interrupts ∧
        reading signed (sizeBits word) (m'.lower word) = withSign (c ^^ e) (dividend / src.toNat) ∧
        reading signed (sizeBits word) (m'.upper word) = withSign c (dividend % src.toNat) ∧
        (word = false → m'.DX = m.DX)) := by
  intro m' none
  have hbits := sizeBits_bounds word
  have hhalf := @two_pow_half (sizeBits word) (by omega)
  have hm' : finishDivision opcode word signed c e l h src m = m' := rfl
  have hcompare : h.setWidth 32 ≥ src ↔ src.toNat ≤ h.toNat := by
    rw [ge_iff_le, BitVec.le_def, BitVec.toNat_setWidth,
      Nat.mod_eq_of_lt (h.isLt.trans (by decide))]
  by_cases hover : src.toNat ≤ h.toNat
  · -- the upper half alone is no smaller than the divisor
    have hnone : none := by
      rcases Nat.eq_zero_or_pos src.toNat with h0 | hpos
      · exact Or.inl h0
      · refine Or.inr ((Nat.le_div_iff_mul_le hpos).mpr ?_)
        have hpow : 2 ^ (if signed then sizeBits word - 1 else sizeBits word) ≤ 2 ^ sizeBits word :=
          Nat.pow_le_pow_right (by decide) (by split <;> omega)
        calc _ ≤ 2 ^ sizeBits word * h.toNat := Nat.mul_le_mul hpow hover
          _ ≤ dividend := by rw [Nat.mul_comm]; omega
    refine ⟨fun _ => ?_, fun hnot => absurd hnone hnot⟩
    rw [← hm', finishDivision, if_pos (hcompare.mpr hover)]
  · rw [finishDivision, if_neg (fun h => hover (hcompare.mp h))] at hm'
    have hpos : 0 < src.toNat := by omega
    dsimp only at hm'
    generalize hd : (divTurn (sizeBits word) src)^[sizeBits word] ⟨l, h, true⟩ = d at hm'
    obtain ⟨hrest, hquotient, hqlt⟩ := div_loop hsrc (by omega) hd
    rw [Nat.mod_eq_of_lt hl, hdividend] at hrest hquotient hqlt
    generalize ~~~(d.l <<< 1 + bitOf d.carry) = q at hquotient hm'
    have htop := @top_bit_negative word q signed
    rw [hquotient] at htop
    rw [htop] at hm'
    have hrestlt : d.h.toNat < src.toNat := by
      rw [hrest]
      exact Nat.mod_lt _ hpos
    cases hnegative : negative signed (sizeBits word) (dividend / src.toNat) with
    | true =>
      rw [hnegative, if_pos rfl] at hm'
      simp only [negative, Bool.and_eq_true, decide_eq_true_eq] at hnegative
      refine ⟨fun _ => hm'.symm, fun hnot => absurd (Or.inr ?_) hnot⟩
      rw [if_pos hnegative.1]
      exact hnegative.2
    | false =>
      rw [hnegative, if_neg Bool.false_ne_true] at hm'
      have hsmall : signed = true → dividend / src.toNat < 2 ^ (sizeBits word - 1) := by
        intro hs
        rw [hs, negative, Bool.true_and, decide_eq_false_iff_not] at hnegative
        omega
      have hnot : ¬none := by
        rintro (h0 | hle)
        · omega
        · cases signed with
          | false => exact absurd hqlt (Nat.not_lt.mpr hle)
          | true => exact absurd (hsmall rfl) (Nat.not_lt.mpr hle)
      refine ⟨fun h => absurd h hnot, fun _ => ?_⟩
      obtain ⟨hlower, hupper, hinterrupts, hDX⟩ :=
        @setQuotient_spec word m opcode hword hop (negateIf (c ^^ e) q) (negateIf c d.h)
      rw [hm'] at hlower hupper hinterrupts hDX
      have hsigns (x : Bool) (hx : x = true → c = true ∨ e = true) : x = true → signed = true := by
        intro hset
        cases hs : signed with
        | true => rfl
        | false =>
          obtain ⟨hc0, he0⟩ := hc hs
          rcases hx hset with h | h
          · exact absurd (hc0.symm.trans h) Bool.false_ne_true
          · exact absurd (he0.symm.trans h) Bool.false_ne_true
      refine ⟨hinterrupts, ?_, ?_, hDX⟩
      · have hs := hsigns (c ^^ e) (by cases c <;> cases e <;> simp)
        rw [hlower, negateIf_mod, hquotient]
        exact reading_complementIf (by omega) hs (fun h => (hsmall (hs h)).le) (fun _ => hsmall)
      · have hs := hsigns c Or.inl
        rw [hupper, negateIf_mod, Nat.mod_eq_of_lt (hrestlt.trans hsrc), hrest]
        rw [hrest] at hrestlt
        exact reading_complementIf (by omega) hs (fun h => (hrestlt.trans_le (hroom (hs h))).le)
          (fun _ h => hrestlt.trans_le (hroom h))

/-- DIV and IDIV, whatever the state is. -/
theorem divides (opcode rmdat : BitVec 8) (ea : BitVec 16) (hword : isWord opcode = word)
    (hop : opcode ≠ 0xd4) (hsigned : divSigned opcode rmdat = signed) :
    Divides signed word ea m (div_rm opcode rmdat ea m) := by
  have hbits := sizeBits_bounds word
  have hylt : ea.toNat % 2 ^ sizeBits word < 2 ^ sizeBits word := Nat.mod_lt _ (Nat.two_pow_pos _)
  have hl := @lower_toNat word m
  have hh := @upper_toNat word m
  have hsized : ((sized word ea).setWidth 32).setWidth 16 = sized word ea :=
    BitVec.setWidth_setWidth_of_le _ (by decide)
  have hvn := @top_bit_negative word (sized word ea) signed
  rw [sized_mod] at hvn
  generalize hm' : div_rm opcode rmdat ea m = m'
  simp only [div_rm, x86_div, hword, hsigned, hsized] at hm'
  generalize (if word then m.AX else m.AL.setWidth 16) = l at hl hm'
  generalize (if word then m.DX else m.AH.setWidth 16) = h at hh hm'
  rw [@dividend_negative word signed m h hh, hvn] at hm'
  obtain ⟨hlow, hdividend⟩ := @negateWide_spec word signed m l h _ hl hh rfl
  have hsrc := @divisor_spec word signed ea _ rfl
  dsimp only at hsrc
  generalize (if negative signed (2 * sizeBits word) (m.wide word) then
    negateWide (sizeBits word) l h else (l, h)) = pair at hlow hdividend hm'
  generalize ((if negative signed (sizeBits word) (ea.toNat % 2 ^ sizeBits word) then
    ~~~(sized word ea).setWidth 32 + 1 else (sized word ea).setWidth 32) &&&
      size_mask (sizeBits word)) = src at hsrc hm'
  have hunsigned : signed = false → negative signed (2 * sizeBits word) (m.wide word) = false ∧
      negative signed (sizeBits word) (ea.toNat % 2 ^ sizeBits word) = false := by
    intro hs
    rw [hs]
    exact ⟨rfl, rfl⟩
  have hroom : signed = true → src.toNat ≤ 2 ^ (sizeBits word - 1) := by
    intro hs
    rw [hsrc, hs]
    exact magnitude_le (by omega) hylt
  obtain ⟨hnone, hsome⟩ := @finishDivision_spec word signed { m with st := { m.st with
    cpu_data := (sized word ea).setWidth 32, cpu_src := src } } opcode hword hop
    (negative signed (2 * sizeBits word) (m.wide word))
    (negative signed (sizeBits word) (ea.toNat % 2 ^ sizeBits word)) hunsigned pair.1 pair.2 src _
    hlow hdividend (hsrc.trans_lt (magnitude_lt hylt)) hroom
  rw [show finishDivision .. = m' from hm'] at hnone hsome
  simp only [Divides, reading_eq (wide_lt m), reading_eq hylt, noQuotient_iff, withSign_tdiv,
    withSign_tmod, ← hsrc]
  refine ⟨fun h => ?_, hsome⟩
  rw [hnone h]
  exact ⟨rfl, rfl, rfl⟩

end

end blumach.cpu_808x
