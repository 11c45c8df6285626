-- What a history of calls leaves in a channel of the 8253 or 8254 that was last programmed
-- to mode 2 or 3.
import BluMach.PitWaves
import BluMach.PitReads

namespace blumach.pit_exact

open PitxType PitxState waveform decimal

/-! ## What has been programmed -/

/-- What the calls say of a channel, whatever the chip makes of it. -/
structure Programmed where
  mode : Nat
  bcd : Bool
  access : Nat
  /-- The low byte of a count whose high byte is still to come. -/
  pending : Option (BitVec 8)
  /-- The last complete count since the control word. -/
  last : Option (BitVec 16)

/-- After a reset. -/
def unprogrammed : Programmed := ⟨0, false, 1, none, none⟩

def Programmed.write (p : Programmed) (value : BitVec 8) : Programmed :=
  if p.access = 1 then { p with last := some (value.setWidth 16) }
  else if p.access = 2 then { p with last := some (value.setWidth 16 <<< 8) }
  else if p.access = 3 then
    match p.pending with
    | none => { p with pending := some value }
    | some low =>
      { p with
        pending := none
        last := some (low.setWidth 16 ||| value.setWidth 16 <<< 8) }
  else p

def Programmed.next (ch : Nat) (p : Programmed) : Call → Programmed
  | .control_write value =>
    if (value >>> 6).toNat = ch ∧ value &&& 0x30 ≠ 0 then
      { mode := canonical_mode (value >>> 1 &&& 7).toNat
        bcd := value &&& 1 ≠ 0
        access := (value >>> 4 &&& 3).toNat
        pending := none
        last := none }
    else p
  | .data_write channel value => if channel = ch then p.write value else p
  | _ => p

def programmed (ch : Nat) (calls : List Call) : Programmed :=
  calls.foldl (Programmed.next ch) unprogrammed

/-- A count of 1 is no divisor of the periodic modes. -/
def replaceOne (mode : Nat) (n : BitVec 16) : BitVec 16 :=
  if n = 1 then if mode = 2 then 2 else if mode = 3 then 0 else n else n

/-- Every byte that is written to a decimal channel is a pair of decimal digits. -/
def ValidBytes (ch : Nat) : Programmed → List Call → Prop
  | _, [] => True
  | p, c :: calls =>
    (∀ value, c = .data_write ch value → p.bcd = true → IsDecimal value.toNat) ∧
      ValidBytes ch (p.next ch c) calls

/-! ## Bytes of the count register -/

theorem toNat_low (value : BitVec 8) : (value.setWidth 16).toNat = value.toNat := by
  rw [BitVec.toNat_setWidth]
  have := value.isLt
  omega

theorem toNat_high (value : BitVec 8) :
    (value.setWidth 16 <<< 8).toNat = 0x100 * value.toNat := by
  rw [BitVec.toNat_shiftLeft, toNat_low, Nat.shiftLeft_eq]
  have := value.isLt
  omega

theorem toNat_with_low (n : BitVec 16) (value : BitVec 8) :
    (n &&& 0xff00#16 ||| value.setWidth 16).toNat = value.toNat + 0x100 * (n.toNat / 0x100) := by
  have hmask : (n &&& 0xff00#16).toNat = 2 ^ 8 * (n.toNat / 0x100) := by
    have hn := n.isLt
    have h : n.toNat &&& 0xff00 = n.toNat / 2 ^ 8 % 2 ^ 8 * 2 ^ 8 := and_field n.toNat 8 8
    rw [BitVec.toNat_and]
    have h0 : (0xff00#16).toNat = 0xff00 := rfl
    rw [h0, h]
    omega
  rw [BitVec.toNat_or, toNat_low, hmask, ← Nat.two_pow_add_eq_or_of_lt value.isLt]
  omega

theorem toNat_with_high (n : BitVec 16) (value : BitVec 8) :
    (n &&& 0x00ff#16 ||| value.setWidth 16 <<< 8).toNat =
      n.toNat % 0x100 + 0x100 * value.toNat := by
  have hmask : (n &&& 0x00ff#16).toNat = n.toNat % 0x100 := by
    rw [BitVec.toNat_and]
    exact Nat.and_two_pow_sub_one_eq_mod n.toNat 8
  have hlt : n.toNat % 0x100 < 2 ^ 8 := Nat.mod_lt _ (by decide)
  rw [BitVec.or_comm, BitVec.toNat_or, toNat_high, hmask]
  have h := Nat.two_pow_add_eq_or_of_lt hlt value.toNat
  have h256 : 2 ^ 8 * value.toNat = 0x100 * value.toNat := rfl
  rw [h256] at h
  omega

/-! ## What a channel keeps of it -/

/-- The registers of the channel hold what has been programmed. -/
structure Follows (p : Programmed) (c : Channel) : Prop where
  mode : c.mode = p.mode
  bcd : c.bcd = p.bcd
  access : c.rw_mode = p.access
  initial_load : c.initial_load = p.last.isNone
  idle : p.pending = none → c.write_phase = 0
  half : ∀ low, p.pending = some low → c.write_phase = 1 ∧ p.access = 3 ∧
    c.count_register.toNat % 0x100 = low.toNat ∧ (p.bcd = true → IsDecimal low.toNat)
  register : ∀ n, p.last = some n → p.pending = none → c.count_register = replaceOne p.mode n
  valid : p.last ≠ none → ValidRegister c

/-- A channel in mode 2 or 3, in any half of its waveform or before it. -/
structure Steady (c : Channel) : Prop where
  waiting : c.initial_load = true →
    c.state = PITX_WAIT_COUNT ∧ c.toggle_on_reload = false ∧ c.output = true ∧
      c.incomplete_reload = false
  high : c.initial_load = false → c.gate = true →
    c.state = PITX_LOAD_NEXT ∨ c.state = PITX_COUNTING ∨ c.state = PITX_RELOAD_NEXT
  low : c.initial_load = false → c.gate = false →
    c.state = PITX_WAIT_GATE ∨ c.state = PITX_LOAD_NEXT
  half : c.incomplete_reload = true → c.write_phase = 1 ∧ c.rw_mode = 3
  counts : c.state = PITX_COUNTING → ValidCount c.bcd c.counting_element
  pulse : c.mode = 2 → c.state = PITX_COUNTING → c.incomplete_reload = false →
    2 ≤ count c.bcd c.counting_element
  level : c.mode = 2 → c.state = PITX_COUNTING ∨ c.gate = false → c.output = true
  steady : c.mode = 2 ∨ c.state = PITX_COUNTING → c.toggle_on_reload = false
  even : c.mode = 3 → c.type = PITX_8254 → c.state = PITX_COUNTING →
    count c.bcd c.counting_element % 2 = 0

theorem Steady.not_waiting {c : Channel} (h : Steady c) (hi : c.initial_load = false) :
    c.state ≠ PITX_WAIT_COUNT := by
  intro hwait
  cases hg : c.gate with
  | true => rcases h.high hi hg with h | h | h <;> rw [h] at hwait <;> cases hwait
  | false => rcases h.low hi hg with h | h <;> rw [h] at hwait <;> cases hwait

structure Good (p : Programmed) (c : Channel) : Prop where
  follows : Follows p c
  steady : c.mode = 2 ∨ c.mode = 3 → Steady c

theorem good_core {p : Programmed} {c : Channel} : Good p (core c) ↔ Good p c := by
  constructor
  · intro ⟨⟨h1, h2, h3, h4, h5, h6, h7, h8⟩, hs⟩
    refine ⟨⟨h1, h2, h3, h4, h5, h6, h7, h8⟩, fun hm => ?_⟩
    obtain ⟨s1, s2, s3, s4, s5, s6, s7, s8, s9⟩ := hs hm
    exact ⟨s1, s2, s3, s4, s5, s6, s7, s8, s9⟩
  · intro ⟨⟨h1, h2, h3, h4, h5, h6, h7, h8⟩, hs⟩
    refine ⟨⟨h1, h2, h3, h4, h5, h6, h7, h8⟩, fun hm => ?_⟩
    obtain ⟨s1, s2, s3, s4, s5, s6, s7, s8, s9⟩ := hs hm
    exact ⟨s1, s2, s3, s4, s5, s6, s7, s8, s9⟩

theorem good_reset (type : PitxType) : Good unprogrammed (reset_channel type) := by
  refine ⟨⟨rfl, rfl, rfl, rfl, fun _ => rfl, nofun, nofun, fun h => absurd rfl h⟩, ?_⟩
  rintro (hm | hm)
  · exact absurd hm (by simp [reset_channel])
  · exact absurd hm (by simp [reset_channel])

theorem good_program_mode (value : BitVec 8) (c : Channel) :
    Good
      { mode := canonical_mode (value >>> 1 &&& 7).toNat
        bcd := value &&& 1 ≠ 0
        access := (value >>> 4 &&& 3).toNat
        pending := none
        last := none }
      (program_mode value c) := by
  refine ⟨⟨rfl, rfl, rfl, rfl, fun _ => rfl, nofun, nofun, fun h => absurd rfl h⟩, ?_⟩
  intro hm
  have hmode : canonical_mode (value >>> 1 &&& 7).toNat ≠ 0 := by
    intro h0
    have : (program_mode value c).mode = 0 := h0
    omega
  have hout : (program_mode value c).output = true := decide_eq_true hmode
  exact ⟨fun _ => ⟨rfl, rfl, hout, rfl⟩, nofun, nofun, nofun, nofun, nofun, fun _ _ => hout,
    fun _ => rfl, nofun⟩

/-! ## The gate -/

theorem fixed_but_gate (gate : Bool) (c : Channel) :
    let c' := setGate gate c
    c'.type = c.type ∧ c'.mode = c.mode ∧ c'.rw_mode = c.rw_mode ∧ c'.bcd = c.bcd ∧
      c'.count_register = c.count_register ∧ c'.write_phase = c.write_phase ∧
      c'.initial_load = c.initial_load ∧ c'.counting_element = c.counting_element ∧
      c'.toggle_on_reload = c.toggle_on_reload ∧ c'.incomplete_reload = c.incomplete_reload ∧
      c'.gate = gate := by
  unfold setGate set_output
  simp only
  split_ifs
  all_goals (try split)
  all_goals simp

/-- In modes 2 and 3 a rising gate loads, and a falling one stops the channel. -/
theorem setGate_periodic {c : Channel} (hm : c.mode = 2 ∨ c.mode = 3) (gate : Bool) :
    (setGate gate c).state =
        (if c.gate = gate ∨ c.state = PITX_WAIT_COUNT then c.state
          else if gate = true then PITX_LOAD_NEXT else PITX_WAIT_GATE) ∧
      (setGate gate c).output = (if c.gate = true ∧ gate = false then true else c.output) := by
  unfold setGate set_output
  rcases hm with hm | hm
  all_goals
    cases hg : c.gate <;> cases gate <;> by_cases hs : c.state = PITX_WAIT_COUNT <;>
      simp [hm, hs]

theorem good_setGate {p : Programmed} {c : Channel} (gate : Bool) (h : Good p c) :
    Good p (setGate gate c) := by
  obtain ⟨htype, hmode, hrw, hbcd, hreg, hwp, hil, hce, htog, hinc, hgate⟩ :=
    fixed_but_gate gate c
  obtain ⟨⟨h1, h2, h3, h4, h5, h6, h7, h8⟩, hs⟩ := h
  refine ⟨⟨hmode ▸ h1, hbcd ▸ h2, hrw ▸ h3, hil ▸ h4, hwp ▸ h5, ?_, hreg ▸ h7, ?_⟩, ?_⟩
  · rw [hwp, hreg]
    exact h6
  · unfold ValidRegister
    rw [hbcd, hreg]
    exact h8
  · intro hm
    rw [hmode] at hm
    obtain ⟨s1, s2, s3, s4, s5, s6, s7, s8, s9⟩ := hs hm
    obtain ⟨hstate, hout⟩ := setGate_periodic hm gate
    have hcounting : (setGate gate c).state = PITX_COUNTING → c.state = PITX_COUNTING := by
      rw [hstate]
      split_ifs <;> simp
    constructor
    · rw [hil, htog, hinc, hstate, hout]
      intro hi
      obtain ⟨w1, w2, w3, w4⟩ := s1 hi
      simp [w1, w2, w3, w4]
    · rw [hil, hgate, hstate]
      intro hi hg
      have hnot := (hs hm).not_waiting hi
      by_cases hcg : c.gate = gate
      · rw [if_pos (.inl hcg)]
        exact s2 hi (hcg.trans hg)
      · rw [if_neg (by simp [hcg, hnot]), if_pos hg]
        exact .inl rfl
    · rw [hil, hgate, hstate]
      intro hi hg
      have hnot := (hs hm).not_waiting hi
      by_cases hcg : c.gate = gate
      · rw [if_pos (.inl hcg)]
        exact s3 hi (hcg.trans hg)
      · rw [if_neg (by simp [hcg, hnot]), if_neg (by rw [hg]; decide)]
        exact .inl rfl
    · rw [hinc, hwp, hrw]
      exact s4
    · rw [hbcd, hce]
      exact fun hc => s5 (hcounting hc)
    · rw [hmode, hinc, hbcd, hce]
      exact fun hm2 hc => s6 hm2 (hcounting hc)
    · rw [hmode, hgate, hout]
      intro hm2 hc
      split_ifs with hfall
      · rfl
      · rcases hc with hc | hc
        · exact s7 hm2 (.inl (hcounting hc))
        · refine s7 hm2 (.inr ?_)
          by_contra hcg
          exact hfall ⟨by simpa using hcg, hc⟩
    · rw [hmode, htog]
      rintro (hc | hc)
      · exact s8 (.inl hc)
      · exact s8 (.inr (hcounting hc))
    · rw [hmode, htype, hbcd, hce]
      exact fun hm3 ht hc => s9 hm3 ht (hcounting hc)

/-! ## Counts that are written -/

theorem finalize_eq (c : Channel) :
    finalize_write c =
      { c with
        count_register := replaceOne c.mode c.count_register
        null_count := true
        armed := true
        initial_load := false
        incomplete_reload := c.initial_load && c.incomplete_reload
        state :=
          if c.initial_load = true then
            if c.mode = 1 ∨ c.mode = 5 then PITX_WAIT_TRIGGER else PITX_LOAD_NEXT
          else if c.incomplete_reload = true ∨ c.mode = 0 ∨ c.mode = 4 then PITX_LOAD_NEXT
          else c.state } := by
  have hreplace : (if c.count_register = 1 then
      if c.mode = 2 then { c with count_register := 2 }
      else if c.mode = 3 then { c with count_register := 0 }
      else c
    else c) = { c with count_register := replaceOne c.mode c.count_register } := by
    unfold replaceOne
    split_ifs <;> rfl
  unfold finalize_write
  rw [hreplace]
  cases hi : c.initial_load with
  | true => simp
  | false => simp

theorem dataWrite_lsb {c : Channel} (h : c.rw_mode = 1) (value : BitVec 8) :
    dataWrite value c = finalize_write { c with count_register := value.setWidth 16 } := by
  unfold dataWrite
  rw [h]
  rfl

theorem dataWrite_msb {c : Channel} (h : c.rw_mode = 2) (value : BitVec 8) :
    dataWrite value c = finalize_write { c with count_register := value.setWidth 16 <<< 8 } := by
  unfold dataWrite
  rw [h]
  rfl

/-- The first byte of two stops mode 0. -/
theorem dataWrite_first {c : Channel} (h : c.rw_mode = 3) (hwp : c.write_phase = 0)
    (value : BitVec 8) :
    dataWrite value c =
      { c with
        count_register := c.count_register &&& 0xff00#16 ||| value.setWidth 16
        write_phase := 1
        state := if c.mode = 0 then PITX_WAIT_COUNT else c.state
        output := if c.mode = 0 then false else c.output } := by
  unfold dataWrite
  rw [h]
  simp only [hwp, if_true]
  split_ifs <;> rfl

theorem dataWrite_second {c : Channel} (h : c.rw_mode = 3) (hwp : c.write_phase = 1)
    (value : BitVec 8) :
    dataWrite value c =
      finalize_write
        { c with
          count_register := c.count_register &&& 0x00ff#16 ||| value.setWidth 16 <<< 8
          write_phase := 0 } := by
  unfold dataWrite
  rw [h]
  simp only [hwp, one_ne_zero, if_false]

/-- In modes 2 and 3 the first count loads at once, and a later one only when half of it
was loaded already. -/
theorem finalize_state {c : Channel} (hm : c.mode = 2 ∨ c.mode = 3) :
    (finalize_write c).state =
      if c.initial_load = true ∨ c.incomplete_reload = true then PITX_LOAD_NEXT
      else c.state := by
  rw [finalize_eq]
  have h15 : ¬(c.mode = 1 ∨ c.mode = 5) := by omega
  have h04 : (c.incomplete_reload = true ∨ c.mode = 0 ∨ c.mode = 4) ↔
      c.incomplete_reload = true := by
    constructor
    · rintro (h | h | h)
      · exact h
      · omega
      · omega
    · exact .inl
  simp only [if_neg h15, h04]
  cases c.initial_load <;> simp

theorem isDecimal_replaceOne {mode : Nat} {n : BitVec 16} (h : IsDecimal n.toNat) :
    IsDecimal (replaceOne mode n).toNat := by
  unfold replaceOne
  split_ifs
  · exact ⟨by decide, by decide, by decide, by decide⟩
  · exact ⟨by decide, by decide, by decide, by decide⟩
  · exact h
  · exact h

theorem good_finalize {p : Programmed} {c : Channel} (h : Good p c) (n : BitVec 16)
    (hn : p.bcd = true → IsDecimal n.toNat) :
    Good { p with pending := none, last := some n }
      (finalize_write { c with count_register := n, write_phase := 0 }) := by
  obtain ⟨⟨h1, h2, h3, h4, h5, h6, h7, h8⟩, hs⟩ := h
  have heq := finalize_eq { c with count_register := n, write_phase := 0 }
  generalize hd : finalize_write { c with count_register := n, write_phase := 0 } = d at heq
  have hmode : d.mode = c.mode := by rw [heq]
  have hbcd : d.bcd = c.bcd := by rw [heq]
  have hgate : d.gate = c.gate := by rw [heq]
  have hce : d.counting_element = c.counting_element := by rw [heq]
  have hout : d.output = c.output := by rw [heq]
  have htog : d.toggle_on_reload = c.toggle_on_reload := by rw [heq]
  have hil : d.initial_load = false := by rw [heq]
  have hreg : d.count_register = replaceOne c.mode n := by rw [heq]
  refine ⟨⟨hmode.trans h1, hbcd.trans h2, ?_, hil, ?_, nofun, ?_, ?_⟩, ?_⟩
  · rw [heq]
    exact h3
  · intro _
    rw [heq]
  · intro m hm _
    cases hm
    rw [hreg, ← h1]
  · intro _ hdecimal
    rw [hbcd] at hdecimal
    rw [hreg]
    exact isDecimal_replaceOne (hn (h2 ▸ hdecimal))
  · intro hm
    rw [hmode] at hm
    obtain ⟨s1, s2, s3, s4, s5, s6, s7, s8, s9⟩ := hs hm
    have hstate := finalize_state (c := { c with count_register := n, write_phase := 0 }) hm
    rw [hd] at hstate
    have hincomplete : d.incomplete_reload = false := by
      rw [heq]
      cases hi : c.initial_load with
      | false => rfl
      | true => exact (s1 hi).2.2.2
    have hcounting : d.state = PITX_COUNTING →
        c.state = PITX_COUNTING ∧ c.incomplete_reload = false := by
      rw [hstate]
      split_ifs with hload
      · nofun
      · intro hc
        exact ⟨hc, by simpa using fun hi => hload (.inr hi)⟩
    constructor
    · rw [hil]
      nofun
    · rw [hgate, hstate]
      intro _ hg
      split_ifs with hload
      · exact .inl rfl
      · exact s2 (by simpa using fun hi => hload (.inl hi)) hg
    · rw [hgate, hstate]
      intro _ hg
      split_ifs with hload
      · exact .inr rfl
      · exact s3 (by simpa using fun hi => hload (.inl hi)) hg
    · rw [hincomplete]
      nofun
    · rw [hbcd, hce]
      exact fun hc => s5 (hcounting hc).1
    · rw [hmode, hbcd, hce]
      exact fun hm2 hc _ => s6 hm2 (hcounting hc).1 (hcounting hc).2
    · rw [hmode, hgate, hout]
      intro hm2 hc
      rcases hc with hc | hc
      · exact s7 hm2 (.inl (hcounting hc).1)
      · exact s7 hm2 (.inr hc)
    · rw [hmode, htog]
      rintro (hc | hc)
      · exact s8 (.inl hc)
      · exact s8 (.inr (hcounting hc).1)
    · have htype : d.type = c.type := by rw [heq]
      rw [hmode, htype, hbcd, hce]
      exact fun hm3 ht hc => s9 hm3 ht (hcounting hc).1

/-- The first byte of two. -/
theorem good_first_byte {p : Programmed} {c : Channel} (h : Good p c) (value : BitVec 8)
    (ha : p.access = 3) (hp : p.pending = none)
    (hvalue : p.bcd = true → IsDecimal value.toNat) :
    Good { p with pending := some value } (dataWrite value c) := by
  obtain ⟨⟨h1, h2, h3, h4, h5, h6, h7, h8⟩, hs⟩ := h
  have hwp := h5 hp
  have heq := dataWrite_first (h3.trans ha) hwp value
  have hnat := toNat_with_low c.count_register value
  have hlt := value.isLt
  rw [heq]
  refine ⟨⟨h1, h2, h3, h4, nofun, ?_, nofun, ?_⟩, ?_⟩
  · intro low hlow
    cases hlow
    refine ⟨rfl, ha, ?_, hvalue⟩
    rw [hnat]
    omega
  · intro hlast hdecimal
    have hold : IsDecimal c.count_register.toNat := h8 hlast hdecimal
    have hnew := hvalue (h2 ▸ hdecimal)
    rw [hnat]
    have hreg := c.count_register.isLt
    refine isDecimal_of_bytes hnew hlt ?_ (by omega)
    obtain ⟨d0, d1, d2, d3⟩ := hold
    refine ⟨?_, ?_, ?_, ?_⟩ <;> omega
  · intro hm
    obtain ⟨s1, s2, s3, s4, s5, s6, s7, s8, s9⟩ := hs hm
    have hm0 : c.mode ≠ 0 := by
      rcases hm with hm | hm
      · have : c.mode = 2 := hm
        omega
      · have : c.mode = 3 := hm
        omega
    simp only [if_neg hm0]
    refine ⟨s1, s2, s3, ?_, s5, s6, s7, s8, s9⟩
    intro hi
    exact absurd (s4 hi).1 (by omega)

theorem good_dataWrite {p : Programmed} {c : Channel} (h : Good p c) (value : BitVec 8)
    (hvalue : p.bcd = true → IsDecimal value.toNat) :
    Good (p.write value) (dataWrite value c) := by
  have hf := h.follows
  have hlt := value.isLt
  have hwhole : p.access ≠ 3 → p.pending = none := by
    intro ha
    cases hp : p.pending with
    | none => rfl
    | some low => exact absurd (hf.half low hp).2.1 ha
  -- a count of one byte finds no other byte in wait
  have hone : ∀ n : BitVec 16, p.access ≠ 3 → (p.bcd = true → IsDecimal n.toNat) →
      Good { p with last := some n } (finalize_write { c with count_register := n }) := by
    intro n ha hn
    have hnone := hwhole ha
    have hzero := hf.idle hnone
    have hgood := good_finalize h n hn
    have hp' : { p with pending := none, last := some n } = { p with last := some n } := by
      rw [← hnone]
    have hc' : { c with count_register := n, write_phase := 0 } =
        { c with count_register := n } := by
      rw [← hzero]
    rwa [hp', hc'] at hgood
  unfold Programmed.write
  split_ifs with h1 h2 h3
  · rw [dataWrite_lsb (hf.access.trans h1)]
    refine hone _ (by omega) (fun hb => ?_)
    rw [toNat_low]
    exact hvalue hb
  · rw [dataWrite_msb (hf.access.trans h2)]
    refine hone _ (by omega) (fun hb => ?_)
    rw [toNat_high]
    obtain ⟨d0, d1, d2, d3⟩ := hvalue hb
    refine ⟨?_, ?_, ?_, ?_⟩ <;> omega
  · cases hp : p.pending with
    | none => exact good_first_byte h value h3 hp hvalue
    | some low =>
      obtain ⟨hwp, -, hlow, hdecimal⟩ := hf.half low hp
      have hlowlt := low.isLt
      have hreg : c.count_register &&& 0x00ff#16 ||| value.setWidth 16 <<< 8 =
          low.setWidth 16 ||| value.setWidth 16 <<< 8 := by
        apply BitVec.eq_of_toNat_eq
        rw [toNat_with_high, hlow, BitVec.or_comm, BitVec.toNat_or, toNat_high, toNat_low]
        have h := Nat.two_pow_add_eq_or_of_lt hlowlt value.toNat
        have h256 : 2 ^ 8 * value.toNat = 0x100 * value.toNat := rfl
        rw [h256] at h
        omega
      rw [dataWrite_second (hf.access.trans h3) hwp, hreg]
      refine good_finalize h _ (fun hb => ?_)
      rw [← hreg, toNat_with_high, hlow]
      exact isDecimal_of_bytes (hdecimal hb) hlowlt (hvalue hb) hlt
  · have heq : dataWrite value c = c := by
      unfold dataWrite
      rw [hf.access]
      split
      · exact absurd ‹_› h1
      · exact absurd ‹_› h2
      · exact absurd ‹_› h3
      · rfl
    rw [heq]
    exact h

/-! ## Ticks -/

theorem loadValue_spec {c : Channel} (h : ValidRegister c) :
    ValidCount c.bcd (loadValue c) ∧ (c.mode = 2 → loadValue c = reload_value c) ∧
      (c.mode = 3 → c.type = PITX_8254 → count c.bcd (loadValue c) % 2 = 0) := by
  unfold loadValue
  split_ifs with hmask
  · obtain ⟨-, hmode, hodd⟩ := hmask
    obtain ⟨hvalid, hcount⟩ := count_masked h hodd
    refine ⟨hvalid, fun h2 => by omega, fun _ _ => ?_⟩
    rw [hcount]
    omega
  · refine ⟨validCount_reload h, fun _ => rfl, fun hm ht => ?_⟩
    have hodd : ¬divisor c % 2 = 1 := fun hn => hmask ⟨ht, hm, (odd_register h).mpr hn⟩
    have : divisor c = count c.bcd (reload_value c) := rfl
    omega

variable {p : Programmed} {c : Channel}

theorem Follows.last_ne_none (h : Follows p c) (hi : c.initial_load = false) :
    p.last ≠ none := by
  intro hnone
  have hload := h.initial_load
  rw [hi, hnone] at hload
  exact absurd hload (by decide)

theorem replaceOne_ne_one {mode : Nat} (hm : mode = 2 ∨ mode = 3) (n : BitVec 16) :
    replaceOne mode n ≠ 1 := by
  unfold replaceOne
  split_ifs with h1 h2 h3
  · decide
  · decide
  · omega
  · exact h1

/-- A count that is whole is at least two. -/
theorem Follows.two_le_divisor (h : Follows p c) (hm : c.mode = 2 ∨ c.mode = 3)
    (hi : c.initial_load = false) (hp : p.pending = none) : 2 ≤ divisor c := by
  apply pit_exact.two_le_divisor
  obtain ⟨n, hn⟩ := Option.ne_none_iff_exists'.mp (h.last_ne_none hi)
  rw [h.register n hn hp, ← h.mode]
  exact replaceOne_ne_one hm n

theorem steady_load (h : Good p c) (hm : c.mode = 2 ∨ c.mode = 3)
    (hi : c.initial_load = false) : Steady (load_counting_element c) := by
  obtain ⟨hf, hs⟩ := h
  have hsteady := hs hm
  have hfixed := fixed_load c
  have hinc := load_incomplete c
  obtain ⟨hvalid, hvalue, heven⟩ := loadValue_spec (hf.valid (hf.last_ne_none hi))
  have hstate : (load_counting_element c).state =
      if c.gate = true then PITX_COUNTING else PITX_WAIT_GATE := by
    rcases hm with hm | hm
    · exact (load_mode2 hm).1
    · exact (load_mode3 hm).1
  constructor
  · rw [hfixed.initial_load, hi]
    nofun
  · rw [hfixed.gate, hstate]
    intro _ hg
    rw [if_pos hg]
    exact .inr (.inl rfl)
  · rw [hfixed.gate, hstate]
    intro _ hg
    rw [if_neg (by rw [hg]; decide)]
    exact .inl rfl
  · rw [hinc, hfixed.write_phase, hfixed.rw_mode]
    split_ifs with hhalf
    · exact fun _ => ⟨hhalf.2, hhalf.1⟩
    · exact hsteady.half
  · rw [hfixed.bcd, load_counting_element_value]
    exact fun _ => hvalid
  · rw [hfixed.mode, hfixed.bcd, load_counting_element_value, hinc]
    intro hm2 _ hwhole
    have hnone : p.pending = none := by
      cases hp : p.pending with
      | none => rfl
      | some low =>
        obtain ⟨hwp, ha, -⟩ := hf.half low hp
        rw [if_pos ⟨hf.access.trans ha, hwp⟩] at hwhole
        exact absurd hwhole (by decide)
    rw [hvalue hm2]
    exact hf.two_le_divisor hm hi hnone
  · rw [hfixed.mode]
    exact fun hm2 _ => (load_mode2 hm2).2.1
  · rw [hfixed.mode]
    intro _
    rcases hm with hm | hm
    · rw [(load_mode2 hm).2.2]
      exact hsteady.steady (.inl hm)
    · exact (load_mode3 hm).2.2
  · rw [hfixed.mode, hfixed.type, hfixed.bcd, load_counting_element_value]
    exact fun hm3 ht _ => heven hm3 ht

/-- What a counting tick must leave for the channel to stay steady. -/
theorem steady_of_count {c' : Channel} (h : Steady c) (hfixed : Fixed c c')
    (hi : c.initial_load = false) (hg : c.gate = true)
    (hinc : c'.incomplete_reload = c.incomplete_reload)
    (hstate : c'.state = PITX_RELOAD_NEXT ∧ (c.mode = 2 → c'.toggle_on_reload = false) ∨
      c'.state = PITX_COUNTING ∧ c'.toggle_on_reload = false ∧
        ValidCount c.bcd c'.counting_element ∧
        (c.mode = 2 → c'.output = true ∧
          (c.incomplete_reload = false → 2 ≤ count c.bcd c'.counting_element)) ∧
        (c.mode = 3 → c.type = PITX_8254 → count c.bcd c'.counting_element % 2 = 0)) :
    Steady c' := by
  have hcounting : c'.state = PITX_COUNTING → c'.toggle_on_reload = false ∧
      ValidCount c.bcd c'.counting_element ∧
      (c.mode = 2 → c'.output = true ∧
        (c.incomplete_reload = false → 2 ≤ count c.bcd c'.counting_element)) ∧
      (c.mode = 3 → c.type = PITX_8254 → count c.bcd c'.counting_element % 2 = 0) := by
    intro hc
    rcases hstate with ⟨hr, -⟩ | ⟨-, hall⟩
    · rw [hr] at hc
      cases hc
    · exact hall
  constructor
  · rw [hfixed.initial_load, hi]
    nofun
  · intro _ _
    rcases hstate with ⟨hr, -⟩ | ⟨hc, -⟩
    · exact .inr (.inr hr)
    · exact .inr (.inl hc)
  · rw [hfixed.gate, hg]
    nofun
  · rw [hinc, hfixed.write_phase, hfixed.rw_mode]
    exact h.half
  · rw [hfixed.bcd]
    exact fun hc => (hcounting hc).2.1
  · rw [hfixed.mode, hinc, hfixed.bcd]
    exact fun hm2 hc hwhole => ((hcounting hc).2.2.1 hm2).2 hwhole
  · rw [hfixed.mode, hfixed.gate, hg]
    intro hm2 hc
    rcases hc with hc | hc
    · exact ((hcounting hc).2.2.1 hm2).1
    · cases hc
  · rw [hfixed.mode]
    intro hc
    rcases hstate with ⟨hr, htog⟩ | ⟨-, htog, -⟩
    · rcases hc with hm2 | hc
      · exact htog hm2
      · rw [hr] at hc
        cases hc
    · exact htog
  · rw [hfixed.mode, hfixed.type, hfixed.bcd]
    exact fun hm3 ht hc => (hcounting hc).2.2.2 hm3 ht

theorem steady_count_mode2 (h : Steady c) (hm : c.mode = 2) (hi : c.initial_load = false)
    (hg : c.gate = true) (hst : c.state = PITX_COUNTING) : Steady (countTick c) := by
  have hvalid := h.counts hst
  have htog := h.steady (.inl hm)
  have hout := h.level hm (.inl hst)
  have hcount := count_decrement hvalid
  have hone := visible_count_eq_one (validCount_decrement hvalid)
  have heq := countTick_mode2 hm hg
  rw [setElement_eq] at heq
  refine steady_of_count h (fixed_countTick c) hi hg ?_ ?_
  · rw [heq]
    split_ifs <;> rfl
  · by_cases hv : visible_count (decrementValue c.bcd c.counting_element) = 1
    · rw [if_pos hv] at heq
      rw [heq]
      exact .inl ⟨rfl, fun _ => htog⟩
    · rw [if_neg hv] at heq
      rw [heq]
      refine .inr ⟨hst, htog, validCount_decrement hvalid, fun _ => ⟨hout, fun hwhole => ?_⟩, ?_⟩
      · have h2 := h.pulse hm hst hwhole
        rw [hone, hcount, countDown_pos (by omega)] at hv
        rw [hcount, countDown_pos (by omega)]
        omega
      · intro hm3
        omega

theorem count_mode3Value_even (h : Steady c) (hm : c.mode = 3) (ht : c.type = PITX_8254)
    (hst : c.state = PITX_COUNTING) : count c.bcd (mode3Value c) % 2 = 0 := by
  have hvalid := h.counts hst
  have heven := h.even hm ht hst
  have hm2 := modulus_even c.bcd
  have h4 := two_lt_modulus c.bcd
  have hstride : stride c = 2 := if_neg (fun h => h.1 ht)
  unfold mode3Value
  rw [hstride, (iterate_decrement hvalid 2).2]
  by_cases h0 : count c.bcd c.counting_element = 0
  · have htwo : (countDown (modulus c.bcd))^[2] 0 = modulus c.bcd - 2 := by
      have h1 : countDown (modulus c.bcd) (modulus c.bcd - 1) = modulus c.bcd - 2 :=
        countDown_pos (by omega)
      exact (congrArg _ (countDown_zero _)).trans h1
    rw [h0, htwo]
    omega
  · rw [iterate_countDown (by omega)]
    omega

theorem steady_count_mode3 (h : Good p c) (hm : c.mode = 3) (hi : c.initial_load = false)
    (hg : c.gate = true) (hst : c.state = PITX_COUNTING) : Steady (count_mode3 c) := by
  have hs := h.steady (.inr hm)
  have hvalid := hs.counts hst
  have htog := hs.steady (.inr hst)
  obtain ⟨hload, -, heven⟩ := loadValue_spec (h.follows.valid (h.follows.last_ne_none hi))
  have heq := count_mode3_eq hm
  rw [setElement_eq] at heq
  refine steady_of_count hs (fixed_count_mode3 c) hi hg ?_ ?_
  · rw [heq, update_live_latch_eq]
    split_ifs <;> rfl
  · by_cases hv : visible_count (mode3Value c) = 0
    · by_cases hd : deferred c
      · rw [if_pos hv, if_pos hd] at heq
        rw [heq]
        exact .inl ⟨rfl, fun hm2 => by omega⟩
      · rw [if_pos hv, if_neg hd, update_live_latch_eq] at heq
        rw [heq]
        exact .inr ⟨hst, htog, hload, fun hm2 => by omega, heven⟩
    · rw [if_neg hv] at heq
      rw [heq]
      exact .inr ⟨hst, htog, (iterate_decrement hvalid _).1, fun hm2 => by omega,
        fun hm3 ht => count_mode3Value_even hs hm3 ht hst⟩

theorem good_tick (h : Good p c) : Good p (tick c) := by
  have hfixed := fixed_tick c
  have hf := h.follows
  constructor
  · refine ⟨hfixed.mode.trans hf.mode, hfixed.bcd.trans hf.bcd, hfixed.rw_mode.trans hf.access,
      hfixed.initial_load.trans hf.initial_load, ?_, ?_, ?_, ?_⟩
    · rw [hfixed.write_phase]
      exact hf.idle
    · rw [hfixed.write_phase, hfixed.count_register]
      exact hf.half
    · rw [hfixed.count_register]
      exact hf.register
    · exact fun hl => validRegister_of_fixed hfixed (hf.valid hl)
  · rw [hfixed.mode]
    intro hm
    have hs := h.steady hm
    have hload : ∀ {state}, c.state = state → (state = PITX_LOAD_NEXT ∨ state = PITX_RELOAD_NEXT) →
        c.initial_load = false → Steady (tick c) := by
      intro state hst hor hi
      have heq : tick c = load_counting_element c := by
        unfold tick
        rcases hor with hor | hor <;> rw [hst, hor]
      rw [heq]
      exact steady_load h hm hi
    have hstay : (c.state = PITX_WAIT_COUNT ∨ c.state = PITX_WAIT_GATE) → Steady (tick c) := by
      intro hor
      have heq : tick c = c := by
        unfold tick
        rcases hor with hor | hor <;> rw [hor]
      rw [heq]
      exact hs
    cases hi : c.initial_load with
    | true => exact hstay (.inl (hs.waiting hi).1)
    | false =>
      cases hg : c.gate with
      | true =>
        rcases hs.high hi hg with hst | hst | hst
        · exact hload hst (.inl rfl) hi
        · have heq : tick c = countTick c := by unfold tick; rw [hst]
          rw [heq]
          rcases hm with hm | hm
          · exact steady_count_mode2 hs hm hi hg hst
          · have hcount : countTick c = count_mode3 c := by
              unfold countTick
              rw [hm]
              exact if_pos hg
            rw [hcount]
            exact steady_count_mode3 h hm hi hg hst
        · exact hload hst (.inr rfl) hi
      | false =>
        rcases hs.low hi hg with hst | hst
        · exact hstay (.inr hst)
        · exact hload hst (.inl rfl) hi

/-! ## Histories -/

theorem good_of_core {d : Channel} (h : core d = core c) (hc : Good p c) : Good p d :=
  good_core.mp (h ▸ good_core.mpr hc)

theorem good_channelCall {ch : Nat} (hch : ch < 3) (type : PitxType) (call : Call) (h : Good p c)
    (hvalid : ∀ value, call = .data_write ch value → p.bcd = true → IsDecimal value.toNat) :
    Good (p.next ch call) (channelCall type ch call c) := by
  cases call with
  | control_write value =>
    unfold channelCall Programmed.next
    simp only
    by_cases h3 : (value >>> 6).toNat = 3
    · have hsel : ¬((value >>> 6).toNat = ch ∧ value &&& 0x30 ≠ 0) := by
        intro hs
        omega
      rw [if_pos h3, if_neg hsel]
      split_ifs
      · exact good_of_core (core_readBack value c) h
      · exact h
    · rw [if_neg h3]
      by_cases hs : (value >>> 6).toNat = ch
      · rw [if_pos hs]
        by_cases hl : value &&& 0x30 = 0
        · rw [if_pos hl, if_neg (fun hp => hp.2 hl)]
          exact good_of_core (core_latch_count c) h
        · rw [if_neg hl, if_pos ⟨hs, hl⟩]
          exact good_program_mode value c
      · rw [if_neg hs, if_neg (fun hp => hs hp.1)]
        exact h
  | data_write channel value =>
    unfold channelCall Programmed.next
    simp only
    split_ifs with hc
    · subst hc
      exact good_dataWrite h value (hvalid value rfl)
    · exact h
  | data_read channel =>
    unfold channelCall
    simp only
    split_ifs
    · exact good_of_core (core_dataRead c) h
    · exact h
  | set_gate channel gate =>
    unfold channelCall
    simp only
    split_ifs
    · exact good_setGate gate h
    · exact h
  | tick_channel channel =>
    unfold channelCall
    simp only
    split_ifs
    · exact good_tick h
    · exact h

theorem good_run {ch : Nat} (hch : ch < 3) (calls : List Call) : ∀ (p : Programmed) (pit : Device),
    Good p (pit.channel ch) → ValidBytes ch p calls →
      Good (calls.foldl (Programmed.next ch) p) ((run pit calls).channel ch) := by
  induction calls with
  | nil => intro p pit h _; exact h
  | cons c calls ih =>
    intro p pit h hvalid
    rw [run_cons, List.foldl_cons]
    refine ih _ _ ?_ hvalid.2
    rw [call_channel hch]
    exact good_channelCall hch pit.type c h hvalid.1

/-- After any history since a reset. -/
theorem good_history {ch : Nat} (hch : ch < 3) (type : PitxType) {calls : List Call}
    (hvalid : ValidBytes ch unprogrammed calls) :
    Good (programmed ch calls) ((run (pitx_reset type) calls).channel ch) :=
  good_run hch calls _ _ (good_reset type) hvalid

end blumach.pit_exact
