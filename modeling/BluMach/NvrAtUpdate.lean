-- The SET bit of the AT clock. With it set no tick announces an update, and a guest's write changes
-- its own register only, but an update that was announced before takes place all the same.
import BluMach.NvrAt

namespace blumach.nvr_at

/-! ## What the parts of a step change -/

theorem timer_update_irq_eq (nvr : Nvr) :
    ∃ c i s, timer_update_irq nvr =
      { nvr with
        regs := Function.update nvr.regs RTC_REGC c, irq_state := i, smi_status := s } := by
  unfold timer_update_irq
  dsimp only
  split
  · split
    · exact ⟨_, _, _, rfl⟩
    · exact ⟨_, _, _, rfl⟩
  · refine ⟨nvr.regs RTC_REGC, nvr.irq_state, nvr.smi_status, ?_⟩
    rw [Function.update_eq_self]

theorem raise_eq (flag : BitVec 8) (nvr : Nvr) :
    ∃ c i s, raise flag nvr =
      { nvr with
        regs := Function.update nvr.regs RTC_REGC c, irq_state := i, smi_status := s } := by
  obtain ⟨c, i, s, h⟩ := timer_update_irq_eq (nvr.set RTC_REGC (nvr.regs RTC_REGC ||| flag))
  refine ⟨c, i, s, ?_⟩
  rw [raise, h]
  simp only [Nvr.set, Function.update_idem]

theorem timer_load_count_eq (nvr : Nvr) :
    ∃ n b t, timer_load_count nvr = { nvr with count := n, state := b, rtc_timer := t } := by
  unfold timer_load_count
  dsimp only
  split
  · exact ⟨_, _, _, rfl⟩
  · split
    · exact ⟨_, _, _, rfl⟩
    · exact ⟨_, _, _, rfl⟩
    · exact ⟨_, _, _, rfl⟩
    · exact ⟨_, _, _, rfl⟩

theorem common_write_eq (reg : Nat) (val : BitVec 8) (nvr : Nvr) :
    ∃ v n d, nvr_reg_common_write reg val nvr =
      { nvr with regs := Function.update nvr.regs reg v, is_new := n, nvr_dosave := d } := by
  have hself : Function.update nvr.regs reg (nvr.regs reg) = nvr.regs :=
    Function.update_eq_self reg nvr.regs
  unfold nvr_reg_common_write
  dsimp only
  split
  · exact ⟨nvr.regs reg, nvr.is_new, nvr.nvr_dosave, by rw [hself]⟩
  · split
    · exact ⟨nvr.regs reg, _, nvr.nvr_dosave, by rw [hself]⟩
    · split
      · exact ⟨nvr.regs reg, _, nvr.nvr_dosave, by rw [hself]⟩
      · split
        · split
          · exact ⟨val, _, true, rfl⟩
          · exact ⟨val, _, nvr.nvr_dosave, rfl⟩
        · exact ⟨nvr.regs reg, _, nvr.nvr_dosave, by rw [hself]⟩

/-- What a write to a register leaves alone. -/
structure WriteKeeps (reg : Nat) (nvr nvr' : Nvr) : Prop where
  regs : ∀ r, r ≠ reg → r ≠ RTC_REGC → nvr'.regs r = nvr.regs r
  ecount : nvr'.ecount = nvr.ecount
  update_timer : nvr'.update_timer = nvr.update_timer

theorem common_write_keeps (reg : Nat) (val : BitVec 8) (nvr : Nvr) :
    WriteKeeps reg nvr (nvr_reg_common_write reg val nvr) := by
  obtain ⟨v, n, d, h⟩ := common_write_eq reg val nvr
  rw [h]
  exact ⟨fun r hr _ => Function.update_of_ne hr _ _, rfl, rfl⟩

theorem set_keeps (reg : Nat) (val : BitVec 8) (nvr : Nvr) :
    WriteKeeps reg nvr (nvr.set reg val) :=
  ⟨fun _ hr _ => Function.update_of_ne hr _ _, rfl, rfl⟩

theorem WriteKeeps.refl (reg : Nat) (nvr : Nvr) : WriteKeeps reg nvr nvr :=
  ⟨fun _ _ _ => rfl, rfl, rfl⟩

theorem irq_keeps {reg : Nat} {nvr nvr' : Nvr} (h : WriteKeeps reg nvr nvr') :
    WriteKeeps reg nvr (timer_update_irq nvr') := by
  obtain ⟨c, i, s, hirq⟩ := timer_update_irq_eq nvr'
  rw [hirq]
  refine ⟨?_, h.ecount, h.update_timer⟩
  intro r hr hc
  rw [← h.regs r hr hc]
  exact Function.update_of_ne hc _ _

theorem switch_keeps (reg : Nat) (val : BitVec 8) (nvr : Nvr) :
    WriteKeeps reg nvr (regSwitch reg val nvr) := by
  unfold regSwitch
  split
  · exact common_write_keeps reg _ nvr
  · split
    · rename_i ha
      subst ha
      split
      · obtain ⟨n, b, t, h⟩ := timer_load_count_eq
          (nvr.set RTC_REGA ((nvr.regs RTC_REGA &&& REGA_UIP) ||| (val &&& ~~~REGA_UIP)))
        rw [h]
        exact ⟨fun r hr _ => Function.update_of_ne hr _ _, rfl, rfl⟩
      · exact WriteKeeps.refl _ nvr
    · split
      · rename_i hb
        subst hb
        apply irq_keeps
        split
        · exact ⟨fun r hr _ => Function.update_of_ne hr _ _, rfl, rfl⟩
        · exact set_keeps _ _ nvr
      · split
        · exact WriteKeeps.refl _ nvr
        · split
          · rename_i hd
            subst hd
            exact set_keeps _ _ nvr
          · split
            · split
              · exact WriteKeeps.refl _ nvr
              · exact common_write_keeps reg val nvr
            · split
              · exact common_write_keeps reg _ nvr
              · exact common_write_keeps reg val nvr

theorem write_keeps (reg : Nat) (val : BitVec 8) (nvr : Nvr) :
    WriteKeeps reg nvr (nvr_reg_write reg val nvr) := by
  have h := switch_keeps reg val nvr
  unfold nvr_reg_write
  dsimp only
  split
  · exact ⟨h.regs, h.ecount, h.update_timer⟩
  · exact h

/-! ## While SET is set -/

def SetIsSet (nvr : Nvr) : Prop := nvr.regs RTC_REGB &&& REGB_SET ≠ 0

/-- The event is no write to register B that clears SET. -/
def LeavesSet (e : Event) : Prop := ∀ val, e = .write RTC_REGB val → val &&& REGB_SET ≠ 0

/-- The registers of the time and the date. -/
def IsClock (reg : Nat) : Prop :=
  reg = RTC_SECONDS ∨ reg = RTC_MINUTES ∨ reg = RTC_HOURS ∨ reg = RTC_DOW ∨ reg = RTC_DOM ∨
    reg = RTC_MONTH ∨ reg = RTC_YEAR

/-- A step after which no update has begun, gone on or come to its end, and the registers of the
clock are what they were, but for the one that the guest has written. -/
structure Frozen (e : Event) (nvr nvr' : Nvr) : Prop where
  clock : ∀ reg, IsClock reg → nvr'.regs reg ≠ nvr.regs reg → ∃ val, e = .write reg val
  update : nvr'.update_timer = nvr.update_timer ∧ nvr'.ecount = nvr.ecount

/-- Every step of a run is frozen. -/
def FrozenRun : List Event → Nvr → Prop
  | [], _ => True
  | e :: es, nvr => ∀ nvr', step e nvr = some nvr' → Frozen e nvr nvr' ∧ FrozenRun es nvr'

theorem clock_ne {reg : Nat} (h : IsClock reg) :
    reg ≠ RTC_REGA ∧ reg ≠ RTC_REGB ∧ reg ≠ RTC_REGC := by
  unfold IsClock RTC_SECONDS RTC_MINUTES RTC_HOURS RTC_DOW RTC_DOM RTC_MONTH RTC_YEAR at h
  unfold RTC_REGA RTC_REGB RTC_REGC
  omega

theorem write_frozen (reg : Nat) (val : BitVec 8) (nvr : Nvr) :
    Frozen (.write reg val) nvr (nvr_reg_write reg val nvr) := by
  have h := write_keeps reg val nvr
  refine ⟨?_, h.update_timer, h.ecount⟩
  intro r hr hne
  by_cases heq : r = reg
  · rw [heq]
    exact ⟨val, rfl⟩
  · exact absurd (h.regs r heq (clock_ne hr).2.2) hne

theorem write_regs (reg : Nat) (val : BitVec 8) (nvr : Nvr) :
    (nvr_reg_write reg val nvr).regs = (regSwitch reg val nvr).regs := by
  unfold nvr_reg_write
  dsimp only
  split <;> rfl

/-- The value that a write puts into register B has its SET. -/
theorem write_regb (val : BitVec 8) (nvr : Nvr) :
    (nvr_reg_write RTC_REGB val nvr).regs RTC_REGB &&& REGB_SET = val &&& REGB_SET := by
  have hmask : (val &&& ~~~REGB_UIE) &&& REGB_SET = val &&& REGB_SET := by
    rw [BitVec.and_assoc]
    rfl
  rw [write_regs]
  unfold regSwitch
  rw [if_neg (by decide), if_neg (by decide), if_pos rfl]
  dsimp only
  generalize hb : Nvr.set RTC_REGB _ _ = nvr'
  obtain ⟨c, i, s, hirq⟩ := timer_update_irq_eq nvr'
  rw [hirq, ← hb]
  dsimp only
  rw [Function.update_of_ne (by decide), Nvr.set]
  dsimp only
  rw [Function.update_self]
  split
  · exact hmask
  · rfl

theorem write_leaves_set {reg : Nat} {val : BitVec 8} {nvr : Nvr} (h : SetIsSet nvr)
    (hl : LeavesSet (.write reg val)) : SetIsSet (nvr_reg_write reg val nvr) := by
  unfold SetIsSet
  by_cases hb : reg = RTC_REGB
  · subst hb
    rw [write_regb]
    exact hl val rfl
  · rw [(write_keeps reg val nvr).regs RTC_REGB (Ne.symm hb) (by decide)]
    exact h

/-- What a step leaves alone that is no write and no update. -/
theorem other_step_keeps {e : Event} {nvr nvr' : Nvr} (h : SetIsSet nvr)
    (hw : ∀ reg val, e ≠ .write reg val) (hu : e ≠ .update) (hs : step e nvr = some nvr') :
    WriteKeeps RTC_REGC nvr nvr' := by
  cases e with
  | write reg val => exact absurd rfl (hw reg val)
  | readC =>
    obtain rfl := Option.some.inj hs
    exact irq_keeps (set_keeps _ _ nvr)
  | tick =>
    obtain rfl := Option.some.inj hs
    have hoff : timer_tick nvr = nvr := if_neg (fun ht => h ht.2)
    rw [hoff]
    exact WriteKeeps.refl _ nvr
  | update => exact absurd rfl hu
  | periodic =>
    rw [step] at hs
    obtain ⟨-, hs⟩ := Option.ite_none_right_eq_some.mp hs
    obtain rfl := Option.some.inj hs
    unfold timer_intr
    split
    · obtain ⟨n, b, t, hload⟩ := timer_load_count_eq { nvr with rtc_timer := none }
      obtain ⟨c, i, s, hraise⟩ :=
        raise_eq REGC_PF (timer_load_count { nvr with rtc_timer := none })
      rw [hraise, hload]
      exact ⟨fun r hr _ => Function.update_of_ne hr _ _, rfl, rfl⟩
    · exact ⟨fun _ _ _ => rfl, rfl, rfl⟩

/-- An update timer that expires takes the update on, or ends it. -/
theorem update_moves {nvr nvr' : Nvr} (hs : step .update nvr = some nvr') :
    ¬(nvr'.update_timer = nvr.update_timer ∧ nvr'.ecount = nvr.ecount) := by
  rw [step] at hs
  obtain ⟨hon, hs⟩ := Option.ite_none_right_eq_some.mp hs
  unfold timer_update at hs
  rintro ⟨htimer, hcount⟩
  by_cases h244 : nvr.ecount = 244
  · rw [if_pos h244] at hs
    obtain ⟨intclk, -, hs⟩ := Option.bind_eq_some_iff.mp hs
    obtain rfl := Option.some.inj hs
    have hend : 1984 = nvr.ecount := hcount
    omega
  · rw [if_neg h244] at hs
    obtain rfl := Option.some.inj hs
    obtain ⟨c, i, s, hraise⟩ := raise_eq REGC_UF { nvr with update_timer := false }
    rw [hraise, hon] at htimer
    have hoff : false = true := htimer
    cases hoff

/-- With SET set, a step leaves the clock frozen unless the update timer expires in it. -/
theorem step_frozen_iff {e : Event} {nvr nvr' : Nvr} (h : SetIsSet nvr)
    (hs : step e nvr = some nvr') : Frozen e nvr nvr' ↔ e ≠ .update := by
  constructor
  · rintro hf rfl
    exact update_moves hs hf.update
  · intro hu
    by_cases hw : ∃ reg val, e = .write reg val
    · obtain ⟨reg, val, rfl⟩ := hw
      obtain rfl := Option.some.inj hs
      exact write_frozen reg val nvr
    · have hk := other_step_keeps h (fun reg val he => hw ⟨reg, val, he⟩) hu hs
      refine ⟨?_, hk.update_timer, hk.ecount⟩
      intro reg hreg hne
      exact absurd (hk.regs reg (clock_ne hreg).2.2 (clock_ne hreg).2.2) hne

theorem step_leaves_set {e : Event} {nvr nvr' : Nvr} (h : SetIsSet nvr) (hl : LeavesSet e)
    (hu : e ≠ .update) (hs : step e nvr = some nvr') : SetIsSet nvr' := by
  by_cases hw : ∃ reg val, e = .write reg val
  · obtain ⟨reg, val, rfl⟩ := hw
    obtain rfl := Option.some.inj hs
    exact write_leaves_set h hl
  · have hk := other_step_keeps h (fun reg val he => hw ⟨reg, val, he⟩) hu hs
    unfold SetIsSet
    rw [hk.regs RTC_REGB (by decide) (by decide)]
    exact h

theorem run_frozen_iff {es : List Event} {nvr nvr' : Nvr} (h : SetIsSet nvr)
    (hl : ∀ e ∈ es, LeavesSet e) (hr : run es nvr = some nvr') :
    FrozenRun es nvr ↔ Event.update ∉ es := by
  induction es generalizing nvr with
  | nil => exact iff_of_true trivial (by simp)
  | cons e es ih =>
    obtain ⟨nvr₁, hs, hr⟩ := Option.bind_eq_some_iff.mp hr
    have hsplit : FrozenRun (e :: es) nvr ↔ Frozen e nvr nvr₁ ∧ FrozenRun es nvr₁ := by
      constructor
      · intro hf
        exact hf nvr₁ hs
      · intro hf nvr₂ hs₂
        obtain rfl := Option.some.inj (hs.symm.trans hs₂)
        exact hf
    rw [hsplit, step_frozen_iff h hs, List.mem_cons, not_or]
    constructor
    · rintro ⟨hu, hf⟩
      have hset := step_leaves_set h (hl e List.mem_cons_self) hu hs
      exact ⟨Ne.symm hu, (ih hset (fun e' he => hl e' (List.mem_cons_of_mem _ he)) hr).mp hf⟩
    · rintro ⟨hu, hn⟩
      have hset := step_leaves_set h (hl e List.mem_cons_self) (Ne.symm hu) hs
      exact ⟨Ne.symm hu, (ih hset (fun e' he => hl e' (List.mem_cons_of_mem _ he)) hr).mpr hn⟩

/-- From the write to register B that sets SET up to the one that clears it, the clock is frozen
just when the update timer does not expire. Only an update that was announced before can let it. -/
theorem set_freezes_iff {nvr nvr' : Nvr} (val : BitVec 8) (es : List Event)
    (hset : val &&& REGB_SET ≠ 0) (hl : ∀ e ∈ es, LeavesSet e)
    (hr : run es (nvr_reg_write RTC_REGB val nvr) = some nvr') :
    FrozenRun es (nvr_reg_write RTC_REGB val nvr) ↔ Event.update ∉ es := by
  apply run_frozen_iff _ hl hr
  unfold SetIsSet
  rw [write_regb]
  exact hset

/-- An update that takes place with SET set was announced before. -/
theorem only_an_announced_update {es : List Event} {nvr nvr' : Nvr} (h : SetIsSet nvr)
    (hl : ∀ e ∈ es, LeavesSet e) (hr : run es nvr = some nvr') (hu : Event.update ∈ es) :
    nvr.update_timer = true := by
  induction es generalizing nvr with
  | nil => cases hu
  | cons e es ih =>
    obtain ⟨nvr₁, hs, hr⟩ := Option.bind_eq_some_iff.mp hr
    by_cases he : e = .update
    · subst he
      rw [step] at hs
      exact (Option.ite_none_right_eq_some.mp hs).1
    · have hle := hl e List.mem_cons_self
      have hf := (step_frozen_iff h hs).mpr he
      rw [← hf.update.1]
      apply ih (step_leaves_set h hle he hs) (fun e' he' => hl e' (List.mem_cons_of_mem _ he')) hr
      exact (List.mem_cons.mp hu).resolve_left (Ne.symm he)

/-- A clock at 12:00:00 on 1 January 2000, a second before the tick. -/
def noon : Nvr := power_on false false
  { regs := fun r => if r = 4 then 0x12 else if r = 7 ∨ r = 8 ∨ r = 6 then 0x01 else
      if r = 0x32 then 0x20 else if r = 11 then 0x02 else 0
    is_new := false, nvr_dosave := false, intclk := ⟨0, 0, 0, 0, 0, 0, 0⟩, stat := 0, cent := 0x32
    irq_state := false, smi_enable := false, smi_status := false, wp := (false, false)
    wp_32 := false, lock := fun _ => 0, flags := 0, bx6 := false, count := 0, state := 0
    ecount := 0, update_timer := false, rtc_timer := none }

/-- With SET set between two ticks the clock stands still over the second of them. -/
theorem set_between_ticks :
    FrozenRun [.tick, .readC] (nvr_reg_write RTC_REGB 0x82 noon) ↔
      Event.update ∉ [Event.tick, .readC] := by
  have hrun : (run [.tick, .readC] (nvr_reg_write RTC_REGB 0x82 noon)).isSome = true := by decide
  obtain ⟨nvr', hr⟩ := Option.isSome_iff_exists.mp hrun
  exact set_freezes_iff 0x82 _ (by decide)
    (by intro e he val hv; simp at he; rcases he with rfl | rfl <;> cases hv) hr

/-- A tick announces an update, and SET is set before it takes place. -/
theorem update_under_set :
    ¬∀ (nvr nvr₁ nvr₂ : Nvr) (val : BitVec 8) (es : List Event), val &&& REGB_SET ≠ 0 →
      (∀ e ∈ es, LeavesSet e) → run [.tick, .write RTC_REGB val] nvr = some nvr₁ →
      run es nvr₁ = some nvr₂ → FrozenRun es nvr₁ := by
  intro hall
  have hleaves : ∀ e ∈ [Event.update], LeavesSet e := by
    intro e he val hv
    rw [List.mem_singleton.mp he] at hv
    cases hv
  have hrun : (run [.update] (nvr_reg_write RTC_REGB 0x82 (timer_tick noon))).isSome = true := by
    decide
  obtain ⟨nvr₂, hr⟩ := Option.isSome_iff_exists.mp hrun
  obtain ⟨nvr₃, hs, -⟩ := Option.bind_eq_some_iff.mp hr
  have hfrozen := hall noon _ nvr₂ 0x82 [.update] (by decide) hleaves rfl hr nvr₃ hs
  exact update_moves hs hfrozen.1.update

end blumach.nvr_at
