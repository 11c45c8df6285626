-- Timers that advance themselves over and over: `timer_advance_u64` adds its delay to the whole
-- timestamp, and linking the timer into the list changes no timestamp, so no period is off.
import BluMach.BitFields
import BluMach.FixedPoint
import BluMach.TimerRuns
import Mathlib.Tactic.Ring

namespace blumach.timer

open fixed_point

variable {τ P : Type}

/-! ## Linking leaves the timestamps alone -/

/-- Both parts of every timestamp. -/
def SameStamps (s s' : TimerState τ P) : Prop :=
  s'.ts_integer = s.ts_integer ∧ s'.ts_frac = s.ts_frac

section

variable [DecidableEq τ]

theorem disable_stamps {t : τ} {s s' : TimerState τ P} (h : timer_disable t s = some s') :
    SameStamps s s' := by
  unfold timer_disable at h
  by_cases hen : (!s.enabled t) = true
  · rw [if_pos hen] at h
    obtain rfl := Option.some.inj h
    exact ⟨rfl, rfl⟩
  · rw [if_neg hen] at h
    by_cases hiso : s.next t = none ∧ s.prev t = none ∧ s.timer_head ≠ some t
    · rw [if_pos hiso] at h
      cases h
    · rw [if_neg hiso] at h
      dsimp only at h
      split at h <;> split at h
      all_goals
        obtain rfl := Option.some.inj h
        exact ⟨rfl, rfl⟩

theorem enableLoop_stamps {t : τ} {fuel : Nat} {node : τ} {s s' : TimerState τ P}
    (h : enableLoop t fuel node s = some s') : SameStamps s s' := by
  induction fuel generalizing node s with
  | zero => cases h
  | succ fuel ih =>
    unfold enableLoop at h
    by_cases hlt : TIMER_LESS_THAN s t node = true
    · rw [if_pos hlt] at h
      dsimp only at h
      split at h
      · obtain rfl := Option.some.inj h
        exact ⟨rfl, rfl⟩
      · obtain rfl := Option.some.inj h
        exact ⟨rfl, rfl⟩
    · rw [if_neg hlt] at h
      split at h
      · obtain rfl := Option.some.inj h
        exact ⟨rfl, rfl⟩
      · exact ih h

end

variable [DecidableEq τ] [Fintype τ]

/-- What `timer_enable` does with a timer that is out of the list. -/
theorem link_stamps {t : τ} {s s' : TimerState τ P}
    (h : (if s.next t ≠ none ∨ s.prev t ≠ none then none
      else
        let s := { s with enabled := Function.update s.enabled t true }
        match s.timer_head with
        | none => some { s with
            timer_head := some t
            next := Function.update s.next t none
            prev := Function.update s.prev t none
            timer_target := s.ts_integer t }
        | some h => enableLoop t (Fintype.card τ) h s) = some s') : SameStamps s s' := by
  by_cases hl : s.next t ≠ none ∨ s.prev t ≠ none
  · rw [if_pos hl] at h
    cases h
  · rw [if_neg hl] at h
    dsimp only at h
    split at h
    · obtain rfl := Option.some.inj h
      exact ⟨rfl, rfl⟩
    · have hs := enableLoop_stamps h
      exact ⟨hs.1, hs.2⟩

theorem enable_stamps {t : τ} {s s' : TimerState τ P} (h : timer_enable t s = some s') :
    SameStamps s s' := by
  unfold timer_enable at h
  by_cases hen : s.enabled t = true
  · simp only [hen, if_true, Option.bind_eq_bind] at h
    obtain ⟨s₁, h1, h2⟩ := Option.bind_eq_some_iff.mp h
    have hs1 := disable_stamps h1
    have hs2 := link_stamps h2
    exact ⟨hs2.1.trans hs1.1, hs2.2.trans hs1.2⟩
  · rw [if_neg hen] at h
    exact link_stamps h

/-! ## One advance -/

/-- The timestamp of a timer as one number, with 32 bits behind the point. -/
def stamp (s : TimerState τ P) (t : τ) : BitVec 96 := s.ts_integer t ++ s.ts_frac t

/-- The test of bit 31 and the mask extend the whole part of the delay by its sign. -/
theorem intDelay_extends (delay : BitVec 64) :
    intDelay delay = (delay.extractLsb' 32 32).signExtend 64 := by
  have hhigh : delay >>> 32 = 0#32 ++ delay.extractLsb' 32 32 := by
    apply BitVec.eq_of_toNat_eq
    have := delay.isLt
    rw [toNat_pair, BitVec.toNat_ushiftRight, BitVec.extractLsb'_toNat, Nat.shiftRight_eq_div_pow,
      BitVec.toNat_ofNat]
    omega
  have hbit : delay >>> 32 &&& 0x0000000080000000 = 0 ↔
      (delay.extractLsb' 32 32).msb = false := by
    have hsign : (delay >>> 32).getLsbD 31 = (delay.extractLsb' 32 32).msb := by
      rw [BitVec.msb_eq_getLsbD_last, BitVec.getLsbD_ushiftRight, BitVec.getLsbD_extractLsb']
      rfl
    rw [← hsign]
    exact bit_fields.and_bit (delay >>> 32) (k := 31) (by omega)
  unfold intDelay
  rw [BitVec.signExtend_eq_append_of_le (by omega)]
  cases hm : (delay.extractLsb' 32 32).msb with
  | false =>
    rw [if_neg (not_not.mpr (hbit.mpr hm)), hhigh]
    rfl
  | true =>
    rw [if_pos (by rw [ne_eq, hbit, hm]; exact Bool.noConfusion), hhigh]
    have hmask : (0xffffffff00000000 : BitVec 64) = BitVec.allOnes 32 ++ 0#32 := by decide
    rw [hmask, BitVec.or_append]
    simp

/-- An advance adds the delay, as a signed number, to the timestamp of its timer. -/
theorem advance_stamp {t : τ} {delay : BitVec 64} {s s' : TimerState τ P}
    (h : timer_advance_u64 t delay s = some s') :
    stamp s' t = stamp s t + BitVec.ofInt 96 delay.toInt := by
  obtain ⟨h1, h2⟩ := enable_stamps h
  have hparts : delay.extractLsb' 32 32 ++ delay.setWidth 32 = delay := by
    apply BitVec.eq_of_toNat_eq
    have := delay.isLt
    rw [toNat_pair, BitVec.extractLsb'_toNat, Nat.shiftRight_eq_div_pow, BitVec.toNat_setWidth]
    omega
  have hdelay : BitVec.ofInt 96 delay.toInt = intDelay delay ++ delay.setWidth 32 := by
    rw [intDelay_extends, ← extend_pair _ _ (by omega) (by omega), hparts]
    rfl
  unfold stamp
  rw [h1, h2, hdelay, add_pair]
  simp only [Function.update_self, carry]

/-- Linking a timer in returns whenever the timers stand in a list, in any order. -/
theorem enable_returns (t : τ) {s : TimerState τ P} {l : List τ} (hg : Good s l) :
    ∃ s' l', timer_enable t s = some s' ∧ Good s' l' := by
  obtain ⟨s₁, h1, hg1, -⟩ := timer_disable_spec t hg
  have ht : t ∉ l.erase t := by
    rw [hg.list.nodup.mem_erase_iff]
    exact fun h => h.1 rfl
  obtain ⟨m₁, m₂, hm, h2, -⟩ := enable_places t h1 hg1 ht
  rw [hm] at hg1 ht
  exact ⟨_, _, h2, good_linked hg1 ht⟩

theorem advance_returns (t : τ) (delay : BitVec 64) {s : TimerState τ P} {l : List τ}
    (hg : Good s l) : ∃ s' l', timer_advance_u64 t delay s = some s' ∧ Good s' l' := by
  unfold timer_advance_u64
  apply enable_returns (l := l)
  exact ⟨hg.list, hg.enabled, hg.unlinked⟩

/-! ## Many advances -/

/-- `n` calls of `timer_advance_u64`, one after another. -/
def advances (t : τ) (delay : BitVec 64) : Nat → TimerState τ P → Option (TimerState τ P)
  | 0, s => some s
  | n + 1, s => (timer_advance_u64 t delay s).bind (advances t delay n)

theorem advances_stamp {t : τ} {delay : BitVec 64} {n : Nat} {s s' : TimerState τ P}
    (h : advances t delay n s = some s') :
    stamp s' t = stamp s t + BitVec.ofInt 96 (n * delay.toInt) := by
  induction n generalizing s with
  | zero =>
    obtain rfl := Option.some.inj h
    simp
  | succ n ih =>
    obtain ⟨s₁, h1, h2⟩ := Option.bind_eq_some_iff.mp h
    have hturn : ((n + 1 : Nat) : Int) * delay.toInt = delay.toInt + n * delay.toInt := by
      push_cast
      ring
    rw [ih h2, advance_stamp h1, hturn, BitVec.ofInt_add, BitVec.add_assoc]

theorem advances_return (t : τ) (delay : BitVec 64) (n : Nat) {s : TimerState τ P} {l : List τ}
    (hg : Good s l) : ∃ s', advances t delay n s = some s' := by
  induction n generalizing s l with
  | zero => exact ⟨s, rfl⟩
  | succ n ih =>
    obtain ⟨s₁, l₁, h1, hg1⟩ := advance_returns t delay hg
    obtain ⟨s', h2⟩ := ih hg1
    exact ⟨s', by rw [advances, h1]; exact h2⟩

/-- A periodic timer does not drift: behind `n` advances its timestamp is off by `n` delays
exactly, in 96 bits. -/
theorem timer_does_not_drift (t : τ) (delay : BitVec 64) (n : Nat) (s : TimerState τ P) :
    (∀ s', advances t delay n s = some s' →
      stamp s' t = BitVec.ofInt 96 ((stamp s t).toNat + n * delay.toInt)) ∧
    ((∃ l, Good s l) → ∃ s', advances t delay n s = some s') := by
  refine ⟨?_, ?_⟩
  · intro s' h
    rw [advances_stamp h, BitVec.ofInt_add, BitVec.ofInt_natCast, BitVec.ofNat_toNat,
      BitVec.setWidth_eq]
  · rintro ⟨l, hg⟩
    exact advances_return t delay n hg

/-- From timestamp 0, three advances by minus a half. -/
theorem three_advances_by_minus_a_half :
    ∃ s', advances (0 : Fin 2) 0xffffffff80000000 3 (initial noPeriods fun _ => true) = some s' ∧
      stamp s' 0 = 0xfffffffffffffffe80000000 := by
  have hrun := timer_does_not_drift (0 : Fin 2) 0xffffffff80000000 3
    (initial noPeriods fun _ => true)
  obtain ⟨l, hg, -⟩ := (initial_inv (τ := Fin 2) noPeriods fun _ => true).1.queue
  obtain ⟨s', hs'⟩ := hrun.2 ⟨l, hg⟩
  exact ⟨s', hs', hrun.1 s' hs'⟩

end blumach.timer
