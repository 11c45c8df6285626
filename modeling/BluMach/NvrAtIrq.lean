-- The periodic timer and the interrupt line of the AT clock. The timer runs as register A says, and
-- the line, like IRQF, is the flags that register B enables. What fails is that register A does not
-- take a value with no bit in common with the one that it holds.
import BluMach.NvrAtUpdate
import Mathlib.Algebra.Group.Nat.Defs

namespace blumach.nvr_at

open nvr (Tm nvr_time_get)

/-! ## What the registers ask for -/

/-- The periods of the oscillator in one period of a rate that is not zero. -/
def ratePeriod (rate : Nat) : Nat :=
  if rate = 1 then 128 else if rate = 2 then 256 else 2 ^ (rate - 1)

/-- The period that a value of register A asks for: none where the divider bits are not 010, or the
rate is zero. -/
def periodOf (a : BitVec 8) : Option Nat :=
  if a &&& 0x70 = 0x20 ∧ a &&& REGA_RS ≠ 0 then some (ratePeriod (a &&& REGA_RS).toNat) else none

/-- The flags of register C that are enabled in register B. -/
def pending (nvr : Nvr) : BitVec 8 :=
  nvr.regs RTC_REGB &&& nvr.regs RTC_REGC &&& (REGB_UIE ||| REGB_AIE ||| REGB_PIE)

/-- The line and IRQF are what the flags say. -/
structure LineFollows (nvr : Nvr) : Prop where
  line : nvr.irq_state = true ↔ pending nvr ≠ 0
  irqf : nvr.regs RTC_REGC &&& REGC_IRQF ≠ 0 ↔ pending nvr ≠ 0

/-- With `a` the last value that the guest wrote to register A. -/
structure Follows (a : BitVec 8) (nvr : Nvr) : Prop where
  timer : nvr.rtc_timer = periodOf a
  line : LineFollows nvr

/-- The last value written to register A after the event. -/
def lastA (a : BitVec 8) : Event → BitVec 8
  | .write reg val => if reg = RTC_REGA then val else a
  | _ => a

/-- The state follows the registers at the start of the run and after each of its steps. -/
def FollowsRun : List Event → BitVec 8 → Nvr → Prop
  | [], a, nvr => Follows a nvr
  | e :: es, a, nvr =>
    Follows a nvr ∧ ∀ nvr', step e nvr = some nvr' → FollowsRun es (lastA a e) nvr'

/-- A write to register A is taken: the value has a bit below UIP that the register has too. Or it
asks for no other period than the register. -/
def Heard (e : Event) (nvr : Nvr) : Prop :=
  ∀ val, e = .write RTC_REGA val →
    val &&& nvr.regs RTC_REGA &&& ~~~REGA_UIP ≠ 0 ∨ periodOf val = periodOf (nvr.regs RTC_REGA)

def HeardRun : List Event → Nvr → Prop
  | [], _ => True
  | e :: es, nvr => Heard e nvr ∧ ∀ nvr', step e nvr = some nvr' → HeardRun es nvr'

/-! ## The interrupt line -/

theorem and_or_of_disjoint (b c i m : BitVec 8) (h : i &&& m = 0) :
    b &&& (c ||| i) &&& m = b &&& c &&& m := by
  calc b &&& (c ||| i) &&& m = (b &&& (c &&& m)) ||| (b &&& (i &&& m)) := by
        rw [BitVec.and_or_distrib_left, BitVec.and_or_distrib_right, BitVec.and_assoc,
          BitVec.and_assoc]
    _ = b &&& c &&& m := by
        rw [h, BitVec.and_assoc]
        simp

theorem and_and_of_covered (b c i m : BitVec 8) (h : i &&& m = m) :
    b &&& (c &&& i) &&& m = b &&& c &&& m := by
  rw [← BitVec.and_assoc b c i, BitVec.and_assoc (b &&& c) i m, h]

theorem or_and_self_ne (c : BitVec 8) : (c ||| REGC_IRQF) &&& REGC_IRQF ≠ 0 := by
  intro h
  have hbit := congrArg (fun x : BitVec 8 => x.getLsbD 7) h
  simp [REGC_IRQF] at hbit

theorem and_not_and_self (c : BitVec 8) : c &&& ~~~REGC_IRQF &&& REGC_IRQF = 0 := by
  rw [BitVec.and_assoc]
  simp [REGC_IRQF]

/-- IRQF is none of the flags that can be enabled. -/
theorem pending_set_or (nvr : Nvr) :
    pending (nvr.set RTC_REGC (nvr.regs RTC_REGC ||| REGC_IRQF)) = pending nvr := by
  unfold pending Nvr.set
  dsimp only
  rw [Function.update_self, Function.update_of_ne (by decide)]
  exact and_or_of_disjoint _ _ _ _ (by decide)

theorem pending_set_and (nvr : Nvr) :
    pending (nvr.set RTC_REGC (nvr.regs RTC_REGC &&& ~~~REGC_IRQF)) = pending nvr := by
  unfold pending Nvr.set
  dsimp only
  rw [Function.update_self, Function.update_of_ne (by decide)]
  exact and_and_of_covered _ _ _ _ (by decide)

theorem update_irq_raised {nvr : Nvr} (h : pending nvr ≠ 0) :
    timer_update_irq nvr =
      { nvr.set RTC_REGC (nvr.regs RTC_REGC ||| REGC_IRQF) with
        irq_state := true, smi_status := nvr.smi_status || nvr.smi_enable } := by
  unfold timer_update_irq
  unfold pending at h
  dsimp only
  rw [if_pos (Or.inl h), if_pos h]
  rfl

theorem update_irq_lowered {nvr : Nvr} (h : pending nvr = 0) (hline : nvr.irq_state = true) :
    timer_update_irq nvr =
      { nvr.set RTC_REGC (nvr.regs RTC_REGC &&& ~~~REGC_IRQF) with irq_state := false } := by
  unfold timer_update_irq
  unfold pending at h
  dsimp only
  rw [if_pos (Or.inr (by rw [hline, h]; decide)), if_neg (not_not.mpr h)]

theorem update_irq_idle {nvr : Nvr} (h : pending nvr = 0) (hline : nvr.irq_state = false) :
    timer_update_irq nvr = nvr := by
  unfold timer_update_irq
  unfold pending at h
  dsimp only
  rw [h, hline]
  rfl

/-- After its update the line follows the flags, if IRQF was not left set without the line. -/
theorem line_of_update {nvr : Nvr}
    (h : nvr.irq_state = false → nvr.regs RTC_REGC &&& REGC_IRQF = 0) :
    LineFollows (timer_update_irq nvr) := by
  by_cases hp : pending nvr = 0
  · cases hline : nvr.irq_state with
    | false =>
      rw [update_irq_idle hp hline]
      exact ⟨by rw [hline, hp]; simp, by rw [h hline, hp]⟩
    | true =>
      have hafter : pending (timer_update_irq nvr) = 0 := by
        rw [update_irq_lowered hp hline]
        exact (pending_set_and nvr).trans hp
      refine ⟨iff_of_false ?_ (not_not.mpr hafter), iff_of_false ?_ (not_not.mpr hafter)⟩
      · rw [update_irq_lowered hp hline]
        exact Bool.false_ne_true
      · rw [update_irq_lowered hp hline, not_not, Nvr.set]
        dsimp only
        rw [Function.update_self]
        exact and_not_and_self _
  · have hafter : pending (timer_update_irq nvr) ≠ 0 := by
      rw [update_irq_raised hp]
      intro h0
      exact hp ((pending_set_or nvr).symm.trans h0)
    refine ⟨iff_of_true ?_ hafter, iff_of_true ?_ hafter⟩
    · rw [update_irq_raised hp]
    · rw [update_irq_raised hp, Nvr.set]
      dsimp only
      rw [Function.update_self]
      exact or_and_self_ne _

/-- With the line off, so is IRQF. -/
theorem irqf_off_line {nvr : Nvr} (h : LineFollows nvr) (hoff : nvr.irq_state = false) :
    nvr.regs RTC_REGC &&& REGC_IRQF = 0 := by
  by_contra hne
  have hon := h.line.mpr (h.irqf.mp hne)
  rw [hoff] at hon
  cases hon

theorem line_of_raise {nvr : Nvr} (flag : BitVec 8) (hflag : flag &&& REGC_IRQF = 0)
    (h : LineFollows nvr) : LineFollows (raise flag nvr) := by
  apply line_of_update
  intro hoff
  have hirqf := irqf_off_line h hoff
  unfold Nvr.set
  dsimp only
  rw [Function.update_self, BitVec.and_or_distrib_right, hirqf, hflag]
  rfl

/-- The line depends on the registers B and C. -/
theorem line_congr {nvr nvr' : Nvr} (h : LineFollows nvr) (hi : nvr'.irq_state = nvr.irq_state)
    (hb : nvr'.regs RTC_REGB = nvr.regs RTC_REGB) (hc : nvr'.regs RTC_REGC = nvr.regs RTC_REGC) :
    LineFollows nvr' := by
  have hp : pending nvr' = pending nvr := by
    unfold pending
    rw [hb, hc]
  exact ⟨by rw [hi, hp]; exact h.line, by rw [hc, hp]; exact h.irqf⟩

/-! ## The periodic timer -/

/-- The timer runs as register A says, and `state` says whether it runs. -/
structure TimerFollows (nvr : Nvr) : Prop where
  timer : nvr.rtc_timer = periodOf (nvr.regs RTC_REGA)
  state : nvr.state = 1 ↔ nvr.rtc_timer.isSome = true

theorem load_starts {nvr : Nvr} (h : nvr.regs RTC_REGA &&& 0x70 = 0x20)
    (hc : (nvr.regs RTC_REGA &&& REGA_RS).toNat ≠ 0) :
    (timer_load_count nvr).rtc_timer = some (ratePeriod (nvr.regs RTC_REGA &&& REGA_RS).toNat) ∧
      (timer_load_count nvr).state = 1 := by
  unfold timer_load_count
  dsimp only
  rw [if_neg (not_not.mpr h)]
  generalize (nvr.regs RTC_REGA &&& REGA_RS).toNat = c at hc
  unfold ratePeriod
  split
  · exact absurd rfl hc
  · exact ⟨rfl, rfl⟩
  · exact ⟨rfl, rfl⟩
  · rename_i h0 h1 h2
    rw [if_neg h1, if_neg h2, Nat.one_shiftLeft]
    exact ⟨rfl, rfl⟩

theorem load_stops {nvr : Nvr}
    (h : nvr.regs RTC_REGA &&& 0x70 = 0x20 → nvr.regs RTC_REGA &&& REGA_RS = 0) :
    timer_load_count nvr = { nvr with rtc_timer := none, state := 0 } := by
  unfold timer_load_count
  dsimp only
  by_cases hd : nvr.regs RTC_REGA &&& 0x70 = 0x20
  · rw [if_neg (not_not.mpr hd), h hd]
    rfl
  · rw [if_pos hd]

theorem load_follows (nvr : Nvr) : TimerFollows (timer_load_count nvr) := by
  have hregs : (timer_load_count nvr).regs = nvr.regs := by
    obtain ⟨n, b, t, h⟩ := timer_load_count_eq nvr
    rw [h]
  by_cases h : nvr.regs RTC_REGA &&& 0x70 = 0x20 ∧ nvr.regs RTC_REGA &&& REGA_RS ≠ 0
  · have hne : (nvr.regs RTC_REGA &&& REGA_RS).toNat ≠ 0 :=
      fun h0 => h.2 (BitVec.eq_of_toNat_eq h0)
    obtain ⟨htimer, hstate⟩ := load_starts h.1 hne
    constructor
    · rw [hregs, htimer, periodOf, if_pos h]
    · rw [hstate, htimer]
      simp
  · have heq := load_stops (fun hd => not_not.mp (fun hc => h ⟨hd, hc⟩))
    constructor
    · rw [hregs, heq, periodOf, if_neg h]
    · rw [heq]
      simp

/-- Register A keeps its UIP, which has no part in the period. -/
theorem period_of_written (a val : BitVec 8) :
    periodOf ((a &&& REGA_UIP) ||| (val &&& ~~~REGA_UIP)) = periodOf val := by
  have hmask : ∀ m : BitVec 8, REGA_UIP &&& m = 0 → ~~~REGA_UIP &&& m = m →
      ((a &&& REGA_UIP) ||| (val &&& ~~~REGA_UIP)) &&& m = val &&& m := by
    intro m h0 hm
    rw [BitVec.and_or_distrib_right, BitVec.and_assoc, BitVec.and_assoc, h0, hm]
    simp
  unfold periodOf
  rw [hmask 0x70 (by decide) (by decide), hmask REGA_RS (by decide) (by decide)]

theorem timer_congr {nvr nvr' : Nvr} (h : TimerFollows nvr) (hs : nvr'.state = nvr.state)
    (ht : nvr'.rtc_timer = nvr.rtc_timer) (ha : nvr'.regs RTC_REGA = nvr.regs RTC_REGA) :
    TimerFollows nvr' :=
  ⟨by rw [ht, ha]; exact h.timer, by rw [hs, ht]; exact h.state⟩

/-! ## The invariant -/

/-- The century register is none of the four registers of the control. -/
structure Inv (nvr : Nvr) : Prop where
  cent : RTC_REGD < nvr.cent
  timer : TimerFollows nvr
  line : LineFollows nvr

/-- What a part of a step leaves alone that is neither about the timer nor about the line. -/
structure Quiet (nvr nvr' : Nvr) : Prop where
  cent : nvr'.cent = nvr.cent
  state : nvr'.state = nvr.state
  rtc_timer : nvr'.rtc_timer = nvr.rtc_timer
  irq_state : nvr'.irq_state = nvr.irq_state
  rega : nvr'.regs RTC_REGA = nvr.regs RTC_REGA
  regb : nvr'.regs RTC_REGB = nvr.regs RTC_REGB
  regc : nvr'.regs RTC_REGC = nvr.regs RTC_REGC

theorem inv_of_quiet {nvr nvr' : Nvr} (h : Inv nvr) (hq : Quiet nvr nvr') : Inv nvr' :=
  ⟨by rw [hq.cent]; exact h.cent, timer_congr h.timer hq.state hq.rtc_timer hq.rega,
    line_congr h.line hq.irq_state hq.regb hq.regc⟩

theorem timer_of_irq {nvr : Nvr} (h : TimerFollows nvr) : TimerFollows (timer_update_irq nvr) := by
  obtain ⟨c, i, s, heq⟩ := timer_update_irq_eq nvr
  have hne : RTC_REGA ≠ RTC_REGC := by decide
  rw [heq]
  exact timer_congr h rfl rfl (Function.update_of_ne hne c nvr.regs)

theorem timer_of_raise {nvr : Nvr} (flag : BitVec 8) (h : TimerFollows nvr) :
    TimerFollows (raise flag nvr) := by
  have hne : RTC_REGA ≠ RTC_REGC := by decide
  apply timer_of_irq
  exact timer_congr h rfl rfl (set_of_ne hne _ nvr)

theorem irq_rega (nvr : Nvr) : (timer_update_irq nvr).regs RTC_REGA = nvr.regs RTC_REGA := by
  obtain ⟨c, i, s, heq⟩ := timer_update_irq_eq nvr
  have hne : RTC_REGA ≠ RTC_REGC := by decide
  rw [heq]
  exact set_of_ne hne c nvr

theorem raise_rega (flag : BitVec 8) (nvr : Nvr) :
    (raise flag nvr).regs RTC_REGA = nvr.regs RTC_REGA := by
  rw [raise, irq_rega, set_of_ne (by decide)]

theorem inv_of_raise {nvr : Nvr} (flag : BitVec 8) (hflag : flag &&& REGC_IRQF = 0)
    (h : Inv nvr) : Inv (raise flag nvr) := by
  refine ⟨?_, timer_of_raise flag h.timer, line_of_raise flag hflag h.line⟩
  obtain ⟨c, i, s, heq⟩ := raise_eq flag nvr
  rw [heq]
  exact h.cent

/-! ## The steps -/

theorem quiet_of_common_write {reg : Nat} (val : BitVec 8) (nvr : Nvr) (ha : reg ≠ RTC_REGA)
    (hb : reg ≠ RTC_REGB) (hc : reg ≠ RTC_REGC) : Quiet nvr (nvr_reg_common_write reg val nvr) := by
  obtain ⟨v, n, d, h⟩ := common_write_eq reg val nvr
  rw [h]
  exact ⟨rfl, rfl, rfl, rfl, Function.update_of_ne (Ne.symm ha) _ _,
    Function.update_of_ne (Ne.symm hb) _ _, Function.update_of_ne (Ne.symm hc) _ _⟩

theorem Quiet.refl (nvr : Nvr) : Quiet nvr nvr := ⟨rfl, rfl, rfl, rfl, rfl, rfl, rfl⟩

theorem Quiet.trans {nvr nvr' nvr'' : Nvr} (h : Quiet nvr nvr') (h' : Quiet nvr' nvr'') :
    Quiet nvr nvr'' :=
  ⟨h'.cent.trans h.cent, h'.state.trans h.state, h'.rtc_timer.trans h.rtc_timer,
    h'.irq_state.trans h.irq_state, h'.rega.trans h.rega, h'.regb.trans h.regb,
    h'.regc.trans h.regc⟩

/-- The registers other than A and B have no part in it. -/
theorem quiet_of_switch {reg : Nat} (val : BitVec 8) (nvr : Nvr) (ha : reg ≠ RTC_REGA)
    (hb : reg ≠ RTC_REGB) : Quiet nvr (regSwitch reg val nvr) := by
  unfold regSwitch
  rw [if_neg ha, if_neg hb]
  by_cases hc : reg = RTC_REGC
  · rw [if_pos hc, if_neg (by rw [hc]; decide)]
    exact Quiet.refl nvr
  · rw [if_neg hc]
    split
    · exact quiet_of_common_write _ nvr ha hb hc
    · split
      · exact ⟨rfl, rfl, rfl, rfl, rfl, rfl, rfl⟩
      · split
        · split
          · exact Quiet.refl nvr
          · exact quiet_of_common_write val nvr ha hb hc
        · split
          · exact quiet_of_common_write _ nvr ha hb hc
          · exact quiet_of_common_write val nvr ha hb hc

theorem quiet_of_write (reg : Nat) (val : BitVec 8) (nvr : Nvr) :
    Quiet (regSwitch reg val nvr) (nvr_reg_write reg val nvr) := by
  unfold nvr_reg_write
  dsimp only
  split
  · exact ⟨rfl, rfl, rfl, rfl, rfl, rfl, rfl⟩
  · exact Quiet.refl _

theorem inv_of_regb {nvr : Nvr} (val : BitVec 8) (h : Inv nvr) :
    Inv (timer_update_irq (nvr.set RTC_REGB val)) := by
  have ha : RTC_REGA ≠ RTC_REGB := by decide
  have hc : RTC_REGC ≠ RTC_REGB := by decide
  refine ⟨?_, timer_of_irq ?_, line_of_update ?_⟩
  · obtain ⟨c, i, s, heq⟩ := timer_update_irq_eq (nvr.set RTC_REGB val)
    rw [heq]
    exact h.cent
  · exact timer_congr h.timer rfl rfl (set_of_ne ha val nvr)
  · intro hoff
    rw [set_of_ne hc]
    exact irqf_off_line h.line hoff

theorem inv_of_rega {nvr : Nvr} (val : BitVec 8) (h : Inv nvr) :
    Inv (timer_load_count (nvr.set RTC_REGA val)) := by
  have hb : RTC_REGB ≠ RTC_REGA := by decide
  have hc : RTC_REGC ≠ RTC_REGA := by decide
  have hload := load_follows (nvr.set RTC_REGA val)
  obtain ⟨n, b, t, heq⟩ := timer_load_count_eq (nvr.set RTC_REGA val)
  refine ⟨?_, hload, ?_⟩
  · rw [heq]
    exact h.cent
  · rw [heq]
    exact line_congr h.line rfl (set_of_ne hb val nvr) (set_of_ne hc val nvr)

theorem inv_of_write {nvr : Nvr} (reg : Nat) (val : BitVec 8) (h : Inv nvr) :
    Inv (nvr_reg_write reg val nvr) := by
  apply inv_of_quiet _ (quiet_of_write reg val nvr)
  by_cases ha : reg = RTC_REGA
  · subst ha
    unfold regSwitch
    rw [if_neg (by decide), if_pos rfl]
    split
    · exact inv_of_rega _ h
    · exact h
  · by_cases hb : reg = RTC_REGB
    · subst hb
      unfold regSwitch
      rw [if_neg (by decide), if_neg (by decide), if_pos rfl]
      dsimp only
      split
      · exact inv_of_regb _ (inv_of_quiet h ⟨rfl, rfl, rfl, rfl, rfl, rfl, rfl⟩)
      · exact inv_of_regb val h
    · exact inv_of_quiet h (quiet_of_switch val nvr ha hb)

/-! ## The update -/

/-- Only the registers of the clock and the century have a new value. -/
theorem quiet_of_set {reg : Nat} (val : BitVec 8) (nvr : Nvr)
    (h : reg < RTC_REGA ∨ RTC_REGD < reg) : Quiet nvr (nvr.set reg val) := by
  unfold RTC_REGA RTC_REGD at h
  have ha : RTC_REGA ≠ reg := by unfold RTC_REGA; omega
  have hb : RTC_REGB ≠ reg := by unfold RTC_REGB; omega
  have hc : RTC_REGC ≠ reg := by unfold RTC_REGC; omega
  exact ⟨rfl, rfl, rfl, rfl, set_of_ne ha val nvr, set_of_ne hb val nvr, set_of_ne hc val nvr⟩

theorem quiet_of_time_set (tm : Tm) (nvr : Nvr) (h : RTC_REGD < nvr.cent) :
    Quiet nvr (time_set tm nvr) := by
  unfold time_set
  dsimp only
  generalize (if nvr.regs RTC_REGB &&& REGB_DM ≠ 0 then BitVec.ofInt 8 else RTC_BCD) = store
  generalize hdate : Nvr.set RTC_YEAR _ _ = date
  have hquiet : Quiet nvr date := by
    rw [← hdate]
    refine Quiet.trans ?_ (quiet_of_set _ _ (Or.inl (by decide)))
    refine Quiet.trans ?_ (quiet_of_set _ _ (Or.inl (by decide)))
    refine Quiet.trans ?_ (quiet_of_set _ _ (Or.inl (by decide)))
    refine Quiet.trans ?_ (quiet_of_set _ _ (Or.inl (by decide)))
    refine Quiet.trans ?_ (quiet_of_set _ _ (Or.inl (by decide)))
    exact quiet_of_set _ _ (Or.inl (by decide))
  generalize hyear : ite (date.cent ≠ 0xff) _ _ = year
  have hquiet : Quiet nvr year := by
    rw [← hyear]
    split
    · exact hquiet.trans (quiet_of_set _ _ (Or.inr (by rw [hquiet.cent]; exact h)))
    · exact hquiet
  split
  · exact hquiet.trans (quiet_of_set _ _ (Or.inl (by decide)))
  · split
    · refine Quiet.trans ?_ (quiet_of_set _ _ (Or.inl (by decide)))
      exact hquiet.trans (quiet_of_set _ _ (Or.inl (by decide)))
    · exact hquiet.trans (quiet_of_set _ _ (Or.inl (by decide)))

theorem inv_of_update {nvr nvr' : Nvr} (h : Inv nvr) (hs : timer_update nvr = some nvr') :
    Inv nvr' ∧ nvr'.regs RTC_REGA = nvr.regs RTC_REGA := by
  unfold timer_update at hs
  split at hs
  · obtain ⟨intclk, -, hs⟩ := Option.bind_eq_some_iff.mp hs
    obtain rfl := Option.some.inj hs
    have hset := quiet_of_time_set (nvr_time_get intclk) { nvr with intclk := intclk } h.cent
    dsimp only
    generalize time_set _ _ = clock at hset ⊢
    generalize hback : ite (clock.cent ≠ 0xff) _ _ = back
    have hquiet : Quiet nvr back := by
      rw [← hback]
      have hclock : Quiet nvr clock :=
        ⟨hset.cent, hset.state, hset.rtc_timer, hset.irq_state, hset.rega, hset.regb, hset.regc⟩
      have hcent : RTC_REGD < clock.cent := by
        rw [hclock.cent]
        exact h.cent
      split
      · exact hclock.trans (quiet_of_set _ _ (Or.inr hcent))
      · exact hclock
    have hinv := inv_of_quiet h hquiet
    split
    · have hraise := inv_of_raise REGC_AF (by decide) hinv
      exact ⟨inv_of_quiet hraise ⟨rfl, rfl, rfl, rfl, rfl, rfl, rfl⟩,
        (raise_rega REGC_AF back).trans hquiet.rega⟩
    · exact ⟨inv_of_quiet hinv ⟨rfl, rfl, rfl, rfl, rfl, rfl, rfl⟩, hquiet.rega⟩
  · obtain rfl := Option.some.inj hs
    have hraise := inv_of_raise REGC_UF (by decide) h
    exact ⟨inv_of_quiet hraise ⟨rfl, rfl, rfl, rfl, rfl, rfl, rfl⟩, raise_rega REGC_UF nvr⟩

/-- A periodic timer that expires is started again before its flag is raised. -/
theorem inv_of_intr {nvr : Nvr} (h : Inv nvr) (hon : nvr.rtc_timer.isSome = true) :
    Inv (timer_intr { nvr with rtc_timer := none }) ∧
      (timer_intr { nvr with rtc_timer := none }).regs RTC_REGA = nvr.regs RTC_REGA := by
  unfold timer_intr
  rw [if_pos (h.timer.state.mpr hon), raise_rega]
  have hload := load_follows { nvr with rtc_timer := none }
  obtain ⟨n, b, t, heq⟩ := timer_load_count_eq { nvr with rtc_timer := none }
  refine ⟨inv_of_raise REGC_PF (by decide) ⟨?_, hload, ?_⟩, ?_⟩
  · rw [heq]
    exact h.cent
  · rw [heq]
    exact line_congr h.line rfl rfl rfl
  · rw [heq]

theorem inv_of_read {nvr : Nvr} (h : Inv nvr) :
    Inv (read_regc nvr).2 ∧ (read_regc nvr).2.regs RTC_REGA = nvr.regs RTC_REGA := by
  unfold read_regc
  dsimp only
  have ha : RTC_REGA ≠ RTC_REGC := by decide
  generalize hval : nvr.regs RTC_REGC &&& _ = val
  refine ⟨⟨?_, timer_of_irq ?_, line_of_update ?_⟩, ?_⟩
  · obtain ⟨c, i, s, heq⟩ := timer_update_irq_eq (nvr.set RTC_REGC val)
    rw [heq]
    exact h.cent
  · exact timer_congr h.timer rfl rfl (set_of_ne ha val nvr)
  · intro _
    rw [set_self, ← hval, BitVec.and_assoc]
    simp [REGC_IRQF, REGC_PF, REGC_AF, REGC_UF]
  · rw [irq_rega, set_of_ne ha]

/-- A step keeps the invariant, and register A if it is no write to it. -/
theorem inv_of_step {e : Event} {nvr nvr' : Nvr} (h : Inv nvr) (hs : step e nvr = some nvr') :
    Inv nvr' ∧ ((∀ val, e ≠ .write RTC_REGA val) → nvr'.regs RTC_REGA = nvr.regs RTC_REGA) := by
  cases e with
  | write reg val =>
    obtain rfl := Option.some.inj hs
    refine ⟨inv_of_write reg val h, ?_⟩
    intro hw
    have hne : RTC_REGA ≠ reg := by
      rintro rfl
      exact hw val rfl
    exact (write_keeps reg val nvr).regs RTC_REGA hne (by decide)
  | readC =>
    obtain rfl := Option.some.inj hs
    obtain ⟨hinv, ha⟩ := inv_of_read h
    exact ⟨hinv, fun _ => ha⟩
  | tick =>
    obtain rfl := Option.some.inj hs
    unfold timer_tick
    split
    · exact ⟨inv_of_quiet h ⟨rfl, rfl, rfl, rfl, rfl, rfl, rfl⟩, fun _ => rfl⟩
    · exact ⟨h, fun _ => rfl⟩
  | update =>
    obtain ⟨-, hs⟩ := Option.ite_none_right_eq_some.mp hs
    have hoff : Inv { nvr with update_timer := false } :=
      inv_of_quiet h ⟨rfl, rfl, rfl, rfl, rfl, rfl, rfl⟩
    obtain ⟨hinv, ha⟩ := inv_of_update hoff hs
    exact ⟨hinv, fun _ => ha⟩
  | periodic =>
    obtain ⟨hon, hs⟩ := Option.ite_none_right_eq_some.mp hs
    obtain rfl := Option.some.inj hs
    obtain ⟨hinv, ha⟩ := inv_of_intr h hon
    exact ⟨hinv, fun _ => ha⟩

/-! ## From power on -/

theorem start_rega (sync blank : Bool) {nvr : Nvr} (h : RTC_REGD < nvr.cent) :
    (nvr_start sync blank nvr).cent = nvr.cent ∧
      (nvr_start sync blank nvr).irq_state = nvr.irq_state ∧
      (nvr_start sync blank nvr).regs RTC_REGA = 0x06 := by
  unfold nvr_start
  dsimp only
  generalize hmarked : ite (blank = true) _ _ = marked
  have hquiet : Quiet nvr marked := by
    rw [← hmarked]
    split
    · exact quiet_of_set _ _ (Or.inr (by decide))
    · exact Quiet.refl nvr
  have hcent : RTC_REGD < marked.cent := by
    rw [hquiet.cent]
    exact h
  generalize htimed : ite (sync = true) _ _ = timed
  have hquiet : Quiet nvr timed := by
    rw [← htimed]
    split
    · exact hquiet.trans (quiet_of_time_set _ _ hcent)
    · exact hquiet.trans ⟨rfl, rfl, rfl, rfl, rfl, rfl, rfl⟩
  exact ⟨hquiet.cent, hquiet.irq_state, by rw [set_of_ne (by decide), set_self]⟩

/-- On power on the oscillator runs, no flag is set and no interrupt is enabled. -/
theorem inv_of_power_on (sync blank : Bool) {nvr : Nvr} (h : RTC_REGD < nvr.cent) :
    Inv (power_on sync blank nvr) ∧ (power_on sync blank nvr).regs RTC_REGA = 0x26 := by
  unfold power_on
  dsimp only
  generalize hoff : Nvr.mk _ _ _ _ _ _ _ _ _ _ _ _ _ _ _ _ _ _ _ = off
  have hcent : RTC_REGD < off.cent := by
    rw [← hoff]
    exact h
  have hline : off.irq_state = false := by rw [← hoff]
  obtain ⟨hc, hi, ha⟩ := start_rega sync blank hcent
  generalize nvr_start sync blank off = started at hc hi ha
  rw [if_pos (by rw [ha]; decide), ha]
  generalize hon : Nvr.set RTC_REGA _ started = on
  have hrega : on.regs RTC_REGA = 0x26 := by
    rw [← hon, set_self]
    rfl
  have hreset : (nvr_at_reset on).regs RTC_REGA = 0x26 := by
    unfold nvr_at_reset
    dsimp only
    rw [set_of_ne (by decide), set_of_ne (by decide), hrega]
  have hpending : pending (nvr_at_reset on) = 0 := by
    have hmask : ~~~(REGB_PIE ||| REGB_AIE ||| REGB_UIE ||| REGB_SQWE) &&&
        (REGB_UIE ||| REGB_AIE ||| REGB_PIE) = 0 := by decide
    unfold pending nvr_at_reset
    dsimp only
    rw [set_self, set_of_ne (by decide), set_self, BitVec.and_assoc, BitVec.and_comm _ (_ ||| _),
      ← BitVec.and_assoc, BitVec.and_assoc (on.regs RTC_REGB), hmask]
    simp
  have hirqf : (nvr_at_reset on).regs RTC_REGC &&& REGC_IRQF = 0 := by
    have hmask : ~~~(REGC_PF ||| REGC_AF ||| REGC_UF ||| REGC_IRQF) &&& REGC_IRQF = 0 := by decide
    unfold nvr_at_reset
    dsimp only
    rw [set_self, BitVec.and_assoc, hmask]
    simp
  have hi : (nvr_at_reset on).irq_state = false := by
    rw [← hon]
    exact hi.trans hline
  have hline : LineFollows (nvr_at_reset on) :=
    ⟨by rw [hi, hpending]; simp, by rw [hirqf, hpending]⟩
  have hcent : RTC_REGD < (nvr_at_reset on).cent := by
    rw [← hon]
    exact lt_of_lt_of_eq hcent hc.symm
  have hload := load_follows (nvr_at_reset on)
  obtain ⟨n, b, t, heq⟩ := timer_load_count_eq (nvr_at_reset on)
  refine ⟨⟨?_, hload, ?_⟩, ?_⟩
  · rw [heq]
    exact hcent
  · rw [heq]
    exact line_congr hline rfl rfl rfl
  · rw [heq]
    exact hreset

/-! ## Every run -/

/-- On every run from power on the line and IRQF follow the flags, whatever is written. -/
theorem the_line_follows (sync blank : Bool) {nvr nvr' : Nvr} (h : RTC_REGD < nvr.cent)
    {es : List Event} (hr : run es (power_on sync blank nvr) = some nvr') : LineFollows nvr' := by
  have hinv := (inv_of_power_on sync blank h).1
  generalize power_on sync blank nvr = start at hr hinv
  induction es generalizing start with
  | nil =>
    obtain rfl := Option.some.inj hr
    exact hinv.line
  | cons e es ih =>
    obtain ⟨next, hs, hr⟩ := Option.bind_eq_some_iff.mp hr
    exact ih next hr (inv_of_step hinv hs).1

theorem rega_of_write (val : BitVec 8) (nvr : Nvr) :
    (nvr_reg_write RTC_REGA val nvr).regs RTC_REGA =
      if val &&& nvr.regs RTC_REGA &&& ~~~REGA_UIP ≠ 0 then
        (nvr.regs RTC_REGA &&& REGA_UIP) ||| (val &&& ~~~REGA_UIP)
      else nvr.regs RTC_REGA := by
  rw [write_regs]
  unfold regSwitch
  rw [if_neg (by decide), if_pos rfl]
  split
  · generalize hset : Nvr.set RTC_REGA _ nvr = written
    obtain ⟨n, b, t, h⟩ := timer_load_count_eq written
    rw [h, ← hset]
    dsimp only
    rw [set_self]
  · rfl

/-- Where the register asks for the period of the value last written, it still does after a step
just if the step is heard. -/
theorem step_heard_iff {e : Event} {a : BitVec 8} {nvr nvr' : Nvr} (hinv : Inv nvr)
    (ha : periodOf a = periodOf (nvr.regs RTC_REGA)) (hs : step e nvr = some nvr') :
    periodOf (lastA a e) = periodOf (nvr'.regs RTC_REGA) ↔ Heard e nvr := by
  by_cases hw : ∃ val, e = .write RTC_REGA val
  · obtain ⟨val, rfl⟩ := hw
    obtain rfl := Option.some.inj hs
    have hlast : lastA a (.write RTC_REGA val) = val := rfl
    have hheard : Heard (.write RTC_REGA val) nvr ↔
        val &&& nvr.regs RTC_REGA &&& ~~~REGA_UIP ≠ 0 ∨
          periodOf val = periodOf (nvr.regs RTC_REGA) := by
      constructor
      · intro h
        exact h val rfl
      · intro h val' hval
        obtain ⟨-, rfl⟩ := Event.write.inj hval
        exact h
    rw [hlast, hheard, rega_of_write]
    split
    · rename_i htaken
      rw [period_of_written]
      exact iff_of_true rfl (Or.inl htaken)
    · rename_i hrefused
      constructor
      · exact Or.inr
      · intro h
        exact h.resolve_left hrefused
  · have hlast : lastA a e = a := by
      cases e with
      | write reg val => exact if_neg (fun hreg => hw ⟨val, by rw [hreg]⟩)
      | readC => rfl
      | tick => rfl
      | update => rfl
      | periodic => rfl
    have hheard : Heard e nvr := fun val hval => absurd ⟨val, hval⟩ hw
    rw [hlast, (inv_of_step hinv hs).2 (fun val hval => hw ⟨val, hval⟩)]
    exact iff_of_true ha hheard

theorem run_follows_iff {es : List Event} {a : BitVec 8} {nvr : Nvr} (hinv : Inv nvr)
    (ha : periodOf a = periodOf (nvr.regs RTC_REGA)) : FollowsRun es a nvr ↔ HeardRun es nvr := by
  have hstart : Follows a nvr := ⟨hinv.timer.timer.trans ha.symm, hinv.line⟩
  induction es generalizing a nvr with
  | nil => exact iff_of_true hstart trivial
  | cons e es ih =>
    have hnext : ∀ nvr', step e nvr = some nvr' →
        (FollowsRun es (lastA a e) nvr' ↔ Heard e nvr ∧ HeardRun es nvr') := by
      intro nvr' hs
      have hinv' := (inv_of_step hinv hs).1
      by_cases hheard : Heard e nvr
      · have ha' := (step_heard_iff hinv ha hs).mpr hheard
        have hrest := ih hinv' ha' ⟨hinv'.timer.timer.trans ha'.symm, hinv'.line⟩
        exact hrest.trans (and_iff_right hheard).symm
      · refine iff_of_false ?_ (fun h => hheard h.1)
        intro hf
        have hfirst : Follows (lastA a e) nvr' := by
          cases es with
          | nil => exact hf
          | cons e' es => exact hf.1
        exact hheard ((step_heard_iff hinv ha hs).mp
          (hfirst.timer.symm.trans hinv'.timer.timer))
    constructor
    · rintro ⟨-, hf⟩
      refine ⟨?_, fun nvr' hs => ((hnext nvr' hs).mp (hf nvr' hs)).2⟩
      rintro val rfl
      exact ((hnext _ rfl).mp (hf _ rfl)).1 val rfl
    · rintro ⟨hheard, hr⟩
      exact ⟨hstart, fun nvr' hs => (hnext nvr' hs).mpr ⟨hheard, hr nvr' hs⟩⟩

/-- On every run from power on the periodic timer runs as the last value written to register A asks,
and the line and IRQF follow the flags, just if each write to register A is heard. -/
theorem registers_are_followed_iff (sync blank : Bool) {nvr : Nvr} (h : RTC_REGD < nvr.cent)
    (es : List Event) :
    FollowsRun es 0x26 (power_on sync blank nvr) ↔ HeardRun es (power_on sync blank nvr) := by
  obtain ⟨hinv, ha⟩ := inv_of_power_on sync blank h
  exact run_follows_iff hinv (by rw [ha])

/-- A faster rate has a bit in common with the one that power on leaves. -/
theorem a_faster_rate_is_followed :
    FollowsRun [.write RTC_REGA 0x23, .periodic] 0x26 (power_on false false noon) := by
  apply (registers_are_followed_iff false false (by decide) _).mpr
  refine ⟨?_, fun _ _ => ⟨?_, fun _ _ => trivial⟩⟩
  · intro val hval
    cases hval
    exact Or.inl (by decide)
  · intro val hval
    cases hval

/-- A write of zero, which turns the divider off, is not taken. -/
theorem zero_is_not_taken :
    ¬∀ (sync blank : Bool) (nvr : Nvr) (es : List Event), RTC_REGD < nvr.cent →
      FollowsRun es 0x26 (power_on sync blank nvr) := by
  intro hall
  have hruns : (nvr_reg_write RTC_REGA 0x00 (power_on false false noon)).rtc_timer ≠
      periodOf 0x00 := by decide
  have hstep := (hall false false noon [.write RTC_REGA 0x00] (by decide)).2 _ rfl
  exact hruns hstep.timer

end blumach.nvr_at
