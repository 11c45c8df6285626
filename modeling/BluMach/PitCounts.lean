-- The counts of the 8253 and 8254 as numbers: binary words and decimal ones count down
-- alike, but for where they wrap.
import BluMach.PitSteps
import BluMach.Decimal
import BluMach.Waveform

namespace blumach.pit_exact

open PitxType PitxState decimal waveform

/-! ## Counts as numbers -/

/-- How many counts there are. -/
def modulus (bcd : Bool) : Nat := if bcd then 10000 else 65536

/-- The number of a counting element. -/
def count (bcd : Bool) (v : Nat) : Nat := if bcd then value v else v

/-- A counting element that a count was loaded to, or that was counted down from one. -/
def ValidCount (bcd : Bool) (v : Nat) : Prop :=
  v = 0x10000 ∨ v < 0x10000 ∧ (bcd = true → IsDecimal v)

variable {bcd : Bool} {v : Nat}

theorem modulus_even (bcd : Bool) : modulus bcd % 2 = 0 := by cases bcd <;> decide

theorem two_lt_modulus (bcd : Bool) : 4 < modulus bcd := by cases bcd <;> decide

theorem modulus_le (bcd : Bool) : modulus bcd ≤ 65536 := by cases bcd <;> decide

theorem count_top (bcd : Bool) : count bcd 0x10000 = modulus bcd := by cases bcd <;> decide

theorem count_lt (h : v < 0x10000) (hd : bcd = true → IsDecimal v) :
    count bcd v < modulus bcd := by
  cases bcd with
  | false => exact h
  | true => exact (hd rfl).value_lt

theorem ValidCount.count_le (h : ValidCount bcd v) : count bcd v ≤ modulus bcd := by
  rcases h with h | ⟨h, hd⟩
  · rw [h, count_top]
  · exact (count_lt h hd).le

theorem count_eq_zero (h : v < 0x10000) : count bcd v = 0 ↔ v = 0 := by
  cases bcd with
  | false => exact Iff.rfl
  | true => exact value_eq_zero h

theorem count_eq_one (h : v < 0x10000) : count bcd v = 1 ↔ v = 1 := by
  cases bcd with
  | false => exact Iff.rfl
  | true => exact value_eq_one h

theorem visible_count_of_lt (h : v < 0x10000) : visible_count v = BitVec.ofNat 16 v :=
  if_neg (by omega)

theorem visible_count_eq_zero (h : ValidCount bcd v) :
    visible_count v = 0 ↔ count bcd v = 0 ∨ count bcd v = modulus bcd := by
  rcases h with h | ⟨h, hd⟩
  · rw [h, count_top]
    exact ⟨fun _ => .inr rfl, fun _ => rfl⟩
  · have hlt := count_lt h hd
    rw [visible_count_of_lt h, ← BitVec.toNat_inj, BitVec.toNat_ofNat, count_eq_zero h]
    have hmod : v % 2 ^ 16 = v := Nat.mod_eq_of_lt h
    rw [hmod]
    constructor
    · exact .inl
    · rintro (h0 | h0)
      · exact h0
      · omega

theorem visible_count_eq_one (h : ValidCount bcd v) : visible_count v = 1 ↔ count bcd v = 1 := by
  rcases h with h | ⟨h, -⟩
  · have := two_lt_modulus bcd
    rw [h, count_top]
    exact ⟨fun h1 => absurd h1 (by decide), fun h1 => absurd h1 (by omega)⟩
  · rw [visible_count_of_lt h, ← BitVec.toNat_inj, BitVec.toNat_ofNat, count_eq_one h]
    have hmod : v % 2 ^ 16 = v := Nat.mod_eq_of_lt h
    rw [hmod]
    exact Iff.rfl

theorem count_mod_two (h : ValidCount bcd v) : count bcd v % 2 = v % 2 := by
  rcases h with h | ⟨h, -⟩
  · rw [h, count_top, modulus_even]
  · cases bcd with
    | false => rfl
    | true => exact value_mod_two h

/-! ## Counting down -/

theorem bcd_decrement_eq (h0 : v ≠ 0) (h : v < 0x10000) : bcd_decrement v = pred v := by
  have hneg : ¬(v = 0 ∨ v = 0x10000) := by omega
  unfold bcd_decrement pred
  rw [if_neg hneg]
  simp only [and_ones, and_tens, and_hundreds, and_word]
  split_ifs <;> omega

theorem decrementValue_spec (h : ValidCount bcd v) :
    decrementValue bcd v < 0x10000 ∧ (bcd = true → IsDecimal (decrementValue bcd v)) ∧
      count bcd (decrementValue bcd v) = countDown (modulus bcd) (count bcd v) := by
  by_cases hwrap : v = 0 ∨ v = 0x10000
  · -- from zero and from the top the next count is the same
    have hcount : countDown (modulus bcd) (count bcd v) = modulus bcd - 1 := by
      unfold countDown
      rcases hwrap with hv | hv
      · rw [hv, if_pos ((count_eq_zero (by omega)).mpr rfl)]
      · have := two_lt_modulus bcd
        rw [hv, count_top, if_neg (by omega)]
    rw [hcount]
    unfold decrementValue bcd_decrement
    cases bcd with
    | false =>
      have hv : (if v = 0 then 0xffff else if v = 0x10000 then 0xffff else (v - 1) &&& 0xffff) =
          0xffff := by
        rcases hwrap with hv | hv
        · rw [if_pos hv]
        · rw [if_neg (by omega), if_pos hv]
      simp only [Bool.false_eq_true, if_false, hv]
      exact ⟨by decide, nofun, by decide⟩
    | true =>
      rw [if_pos rfl, if_pos hwrap]
      exact ⟨by decide, fun _ => ⟨by decide, by decide, by decide, by decide⟩, by decide⟩
  · obtain ⟨hlt, hd⟩ : v < 0x10000 ∧ (bcd = true → IsDecimal v) := by
      rcases h with h | h
      · exact absurd (.inr h) hwrap
      · exact h
    have h0 : v ≠ 0 := fun h => hwrap (.inl h)
    have hcount : countDown (modulus bcd) (count bcd v) = count bcd v - 1 := by
      unfold countDown
      rw [if_neg (fun h => h0 ((count_eq_zero hlt).mp h))]
    rw [hcount]
    unfold decrementValue
    cases bcd with
    | false =>
      simp only [Bool.false_eq_true, if_false, if_neg h0, if_neg (fun h => hwrap (.inr h)),
        and_word]
      refine ⟨by omega, nofun, ?_⟩
      have hmod : (v - 1) % 0x10000 = v - 1 := Nat.mod_eq_of_lt (by omega)
      rw [hmod]
      rfl
    | true =>
      have hpred := (hd rfl).pred h0
      rw [if_pos rfl, bcd_decrement_eq h0 hlt]
      exact ⟨hpred.1.lt, fun _ => hpred.1, hpred.2⟩

theorem validCount_decrement (h : ValidCount bcd v) : ValidCount bcd (decrementValue bcd v) :=
  .inr ⟨(decrementValue_spec h).1, (decrementValue_spec h).2.1⟩

theorem count_decrement (h : ValidCount bcd v) :
    count bcd (decrementValue bcd v) = countDown (modulus bcd) (count bcd v) :=
  (decrementValue_spec h).2.2

theorem iterate_decrement (h : ValidCount bcd v) (n : Nat) :
    ValidCount bcd ((decrementValue bcd)^[n] v) ∧
      count bcd ((decrementValue bcd)^[n] v) = (countDown (modulus bcd))^[n] (count bcd v) := by
  induction n with
  | zero => exact ⟨h, rfl⟩
  | succ n ih =>
    rw [Function.iterate_succ_apply', Function.iterate_succ_apply']
    exact ⟨validCount_decrement ih.1, by rw [count_decrement ih.1, ih.2]⟩

/-! ## The count that is loaded -/

/-- The count register holds a count of its kind. -/
def ValidRegister (c : Channel) : Prop := c.bcd = true → IsDecimal c.count_register.toNat

/-- The number of clocks that the count register stands for. -/
def divisor (c : Channel) : Nat := count c.bcd (reload_value c)

variable {c : Channel}

theorem validCount_reload (h : ValidRegister c) : ValidCount c.bcd (reload_value c) := by
  unfold reload_value
  split_ifs
  · exact .inr ⟨c.count_register.isLt, h⟩
  · exact .inl rfl

theorem odd_register (h : ValidRegister c) :
    c.count_register &&& 1 ≠ 0 ↔ divisor c % 2 = 1 := by
  have hbit : c.count_register &&& 1 ≠ 0 ↔ c.count_register.toNat % 2 = 1 := by
    rw [Ne, ← BitVec.toNat_inj, BitVec.toNat_and]
    have h1 : (1 : BitVec 16).toNat = 1 := rfl
    have h0 : (0 : BitVec 16).toNat = 0 := rfl
    rw [h1, h0, Nat.and_one_is_mod]
    omega
  rw [hbit]
  unfold divisor
  rw [count_mod_two (validCount_reload h)]
  unfold reload_value
  split_ifs with h0
  · exact Iff.rfl
  · rw [not_not.mp h0]
    decide

/-- A count other than zero and one stands for two clocks at least. -/
theorem two_le_divisor (h1 : c.count_register ≠ 1) : 2 ≤ divisor c := by
  have hm := two_lt_modulus c.bcd
  unfold divisor reload_value
  split_ifs with h0
  · have hlt := c.count_register.isLt
    have hz : count c.bcd c.count_register.toNat ≠ 0 := by
      rw [Ne, count_eq_zero hlt]
      exact fun h => h0 (BitVec.eq_of_toNat_eq h)
    have ho : count c.bcd c.count_register.toNat ≠ 1 := by
      rw [Ne, count_eq_one hlt]
      exact fun h => h1 (BitVec.eq_of_toNat_eq h)
    omega
  · rw [count_top]
    omega

theorem divisor_le (h : ValidRegister c) : divisor c ≤ modulus c.bcd :=
  (validCount_reload h).count_le

/-- The 8254 drops the odd clock of a count in mode 3. -/
theorem count_masked (h : ValidRegister c) (hodd : c.count_register &&& 1 ≠ 0) :
    ValidCount c.bcd (reload_value c &&& 0xfffe) ∧
      count c.bcd (reload_value c &&& 0xfffe) = divisor c - divisor c % 2 := by
  have h0 : c.count_register ≠ 0 := by
    intro h0
    rw [h0] at hodd
    exact absurd hodd (by decide)
  have hlt := c.count_register.isLt
  have hmod := count_mod_two (validCount_reload h)
  unfold divisor
  rw [hmod]
  unfold reload_value
  rw [if_pos h0, and_even hlt]
  cases hb : c.bcd with
  | false => exact ⟨.inr ⟨by omega, nofun⟩, rfl⟩
  | true =>
    have heven := (h hb).even
    exact ⟨.inr ⟨by omega, fun _ => heven.1⟩, heven.2⟩

end blumach.pit_exact
