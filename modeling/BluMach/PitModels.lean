-- The two models of the 8253 and 8254 side by side: which counts and modes give the same edges.
import BluMach.PitFastLaws
import BluMach.PitPeriodic
import BluMach.PitOneShot

namespace blumach.pit_fast

open edge_train
open pit_exact (modeOf accessOf bcdOf clocks written countBytes)

/-! ## The fast model after its count -/

/-- A control word and one complete count. -/
def pitf_program (ch : Nat) (value : BitVec 8) (n : BitVec 16) (dev : Device) : Device :=
  (countBytes (accessOf value) n).foldl
    (fun dev byte => pitf_write (BitVec.ofNat 16 (0x40 + ch)) byte dev)
    (pitf_write 0x43 value dev)

/-- Where the count starts. -/
structure Started (mode n : Nat) (ctr : Ctrf) : Prop where
  live : Live mode n ctr
  out : ctr.out = decide (mode ≠ 0)
  count : ctr.count = if mode = 2 then (n : Int) - 1 else n
  newcount : ctr.newcount = decide (mode = 3 ∧ n % 2 = 1)

/-- A counter that the control word left waiting for its count. -/
structure Waiting (mode : Nat) (ctr : Ctrf) : Prop where
  m : ctr.m = mode
  gate : ctr.gate = true
  initial : ctr.initial = true
  thit : ctr.thit = false
  out : ctr.out = decide (mode ≠ 0)

theorem loadMode_0 {ctr : Ctrf} (h : ctr.m = 0) :
    loadMode ctr =
      { pitf_ctr_set_out false { ctr with count := reload ctr } with
        thit := false
        enabled := ctr.gate } := by
  unfold loadMode
  rw [h]
  rfl

theorem loadMode_2 {ctr : Ctrf} (h : ctr.m = 2) (hi : ctr.initial = true) :
    loadMode ctr =
      { pitf_ctr_set_out true { ctr with count := reload ctr - 1 } with
        thit := false
        enabled := ctr.gate } := by
  unfold loadMode
  rw [h]
  simp only [if_pos hi]
  rfl

theorem loadMode_3 {ctr : Ctrf} (h : ctr.m = 3) (hi : ctr.initial = true) :
    loadMode ctr =
      { pitf_ctr_set_out true
          { ctr with count := reload ctr, newcount := decide (reload ctr % 2 = 1) } with
        thit := false
        enabled := ctr.gate } := by
  unfold loadMode
  rw [h]
  simp only [if_pos hi]
  rfl

theorem started_loadMode {mode n : Nat} {ctr : Ctrf} (h : Waiting mode ctr)
    (hm : mode = 0 ∨ mode = 2 ∨ mode = 3) (hl : reload ctr = n) (hd : ctr.disabled = false)
    (hnew : ctr.newcount = false) : Started mode n (loadMode ctr) := by
  have hodd : decide ((n : Int) % 2 = 1) = decide (n % 2 = 1) := decide_eq_decide.mpr (by omega)
  rcases hm with hm | hm | hm
  · subst hm
    rw [loadMode_0 h.m]
    exact ⟨⟨h.m, h.gate, hd, rfl, hl⟩, rfl, hl, hnew⟩
  · subst hm
    rw [loadMode_2 h.m h.initial, hl]
    exact ⟨⟨h.m, h.gate, hd, rfl, hl⟩, rfl, rfl, hnew⟩
  · subst hm
    rw [loadMode_3 h.m h.initial, hl]
    refine ⟨⟨h.m, h.gate, hd, rfl, hl⟩, rfl, rfl, ?_⟩
    simp only [true_and]
    exact hodd

theorem started_load {mode n : Nat} {ctr : Ctrf} (h : Waiting mode ctr)
    (hm : mode = 0 ∨ mode = 2 ∨ mode = 3) (hl : reload ctr = n) :
    Started mode n (pitf_ctr_load ctr) := by
  have hw : Waiting mode { ctr with newcount := false, disabled := false } :=
    ⟨h.m, h.gate, h.initial, h.thit, h.out⟩
  obtain ⟨hlive, hout, hcount, hnew⟩ := started_loadMode hw hm hl rfl rfl
  exact ⟨⟨hlive.m, hlive.enabled, hlive.disabled, hlive.thit, hlive.reload⟩, hout, hcount, hnew⟩

/-! ## Control word and count -/

theorem modeBits_eq (value : BitVec 8) : modeBits value = modeOf value := by
  have hall : ∀ v : BitVec 8, modeBits v = modeOf v := by decide
  exact hall value

theorem waiting_programMode {value : BitVec 8} {ctr : Ctrf} (hp : value &&& 0x30 ≠ 0)
    (hg : ctr.gate = true) :
    Waiting (modeOf value) { programMode value ctr with thit := false } ∧
      (programMode value ctr).wm = accessOf value := by
  have haccess : (value >>> 4 &&& 3).toNat ≠ 0 := by
    have hall : ∀ v : BitVec 8, v &&& 0x30 ≠ 0 → (v >>> 4 &&& 3).toNat ≠ 0 := by decide
    exact hall value hp
  unfold programMode
  simp only [if_neg haccess]
  refine ⟨⟨modeBits_eq value, hg, rfl, rfl, ?_⟩, rfl⟩
  rw [← modeBits_eq]
  rfl

theorem toNat_byte (value : BitVec 8) : (value.setWidth 32).toNat = value.toNat := by
  rw [BitVec.toNat_setWidth]
  have := value.isLt
  omega

theorem toNat_high_byte (value : BitVec 8) :
    (value.setWidth 32 <<< 8).toNat = 0x100 * value.toNat := by
  rw [BitVec.toNat_shiftLeft, toNat_byte, Nat.shiftLeft_eq]
  have := value.isLt
  omega

/-- The second byte of two keeps the first, and nothing of the old count. -/
theorem toNat_two_bytes (l : BitVec 32) (low high : BitVec 8) :
    ((l &&& 0xff00#32 ||| low.setWidth 32) &&& 0xff#32 ||| high.setWidth 32 <<< 8).toNat =
      low.toNat + 0x100 * high.toNat := by
  have hlow : ((l &&& 0xff00#32 ||| low.setWidth 32) &&& 0xff#32).toNat = low.toNat := by
    have hold : (l.toNat &&& 0xff00) % 2 ^ 8 = 0 := by
      rw [Nat.and_mod_two_pow]
      exact Nat.and_zero _
    have hmask : ∀ x, x &&& 0xff = x % 2 ^ 8 := fun x => Nat.and_two_pow_sub_one_eq_mod x 8
    have hff : (0xff#32).toNat = 0xff := rfl
    have hff00 : (0xff00#32).toNat = 0xff00 := rfl
    have hlt : low.toNat % 2 ^ 8 = low.toNat := Nat.mod_eq_of_lt low.isLt
    rw [BitVec.toNat_and, hff, hmask, BitVec.toNat_or, BitVec.toNat_and, hff00, toNat_byte,
      Nat.or_mod_two_pow, hold, hlt, Nat.zero_or]
  rw [BitVec.toNat_or, hlow, toNat_high_byte, Nat.or_comm,
    ← Nat.two_pow_add_eq_or_of_lt (i := 8) low.isLt]
  omega

/-- The counts of the two models. -/
theorem reload_eq_clocks {ctr : Ctrf} {access : Nat} {n : BitVec 16}
    (h : ctr.l.toNat = (written access n).toNat) : reload ctr = clocks false access n := by
  have hzero : ctr.l = 0 ↔ written access n = 0 := by
    rw [← BitVec.toNat_inj, ← BitVec.toNat_inj, h]
    rfl
  unfold reload clocks
  by_cases h0 : written access n = 0
  · rw [if_neg (fun hc => hc (hzero.mpr h0)), if_pos h0]
    rfl
  · rw [if_pos (fun hc => h0 (hzero.mp hc)), if_neg h0, h]
    rfl

theorem started_countBytes {mode access : Nat} {ctr : Ctrf} (n : BitVec 16)
    (h : Waiting mode ctr) (hwm : ctr.wm = access)
    (ha : access = 1 ∨ access = 2 ∨ access = 3) (hm : mode = 0 ∨ mode = 2 ∨ mode = 3) :
    Started mode (clocks false access n)
      ((countBytes access n).foldl (fun c byte => dataWrite byte c) ctr) := by
  have hw : ∀ l, Waiting mode { ctr with l := l } :=
    fun l => ⟨h.m, h.gate, h.initial, h.thit, h.out⟩
  have hn := n.isLt
  rcases ha with ha | ha | ha
  · subst ha
    have hbytes : (countBytes 1 n).foldl (fun c byte => dataWrite byte c) ctr =
        pitf_ctr_load { ctr with l := (n.setWidth 8).setWidth 32 } := by
      unfold countBytes dataWrite
      simp only [if_true, List.foldl_cons, List.foldl_nil, hwm]
    rw [hbytes]
    refine started_load (hw _) hm (reload_eq_clocks ?_)
    simp only [toNat_byte, ← pit_exact.low_byte, pit_exact.toNat_low, written, if_true]
  · subst ha
    have h21 : ¬2 = 1 := by decide
    have hbytes : (countBytes 2 n).foldl (fun c byte => dataWrite byte c) ctr =
        pitf_ctr_load { ctr with l := ((n >>> 8).setWidth 8).setWidth 32 <<< 8 } := by
      unfold countBytes dataWrite
      simp only [if_true, if_neg h21, List.foldl_cons, List.foldl_nil, hwm]
    rw [hbytes]
    refine started_load (hw _) hm (reload_eq_clocks ?_)
    simp only [toNat_high_byte, ← pit_exact.high_byte, pit_exact.toNat_high, written, if_true,
      if_neg h21]
  · subst ha
    have h31 : ¬3 = 1 := by decide
    have h32 : ¬3 = 2 := by decide
    have hbytes : (countBytes 3 n).foldl (fun c byte => dataWrite byte c) ctr =
        { pitf_ctr_load
            { ctr with
              l := (ctr.l &&& 0xff00#32 ||| (n.setWidth 8).setWidth 32) &&& 0xff#32 |||
                ((n >>> 8).setWidth 8).setWidth 32 <<< 8
              wm := 0 } with
          wm := 3 } := by
      unfold countBytes dataWrite
      simp only [if_neg h31, if_neg h32, List.foldl_cons, List.foldl_nil, hwm]
    rw [hbytes]
    have hw' : ∀ l, Waiting mode { ctr with l := l, wm := 0 } :=
      fun l => ⟨h.m, h.gate, h.initial, h.thit, h.out⟩
    have hl : (n.setWidth 8).toNat + 0x100 * ((n >>> 8).setWidth 8).toNat =
        (written 3 n).toNat := by
      have hwhole : written 3 n = n := rfl
      rw [hwhole, BitVec.toNat_setWidth, BitVec.toNat_setWidth, BitVec.toNat_ushiftRight,
        Nat.shiftRight_eq_div_pow]
      omega
    obtain ⟨hlive, hout, hcount, hnew⟩ :=
      started_load (hw' _) hm (reload_eq_clocks ((toNat_two_bytes _ _ _).trans hl))
    exact ⟨⟨hlive.m, hlive.enabled, hlive.disabled, hlive.thit, hlive.reload⟩, hout, hcount, hnew⟩

/-! ## Programs -/

theorem pitf_write_data {ch : Nat} (hch : ch < 3) (val : BitVec 8) (dev : Device) :
    pitf_write (BitVec.ofNat 16 (0x40 + ch)) val dev = onCounter ch (dataWrite val) dev := by
  have haddr : BitVec.ofNat 16 (0x40 + ch) &&& 3 ≠ 3 ∧
      (BitVec.ofNat 16 (0x40 + ch) &&& 3).toNat = ch := by
    rcases (by omega : ch = 0 ∨ ch = 1 ∨ ch = 2) with h | h | h
    · subst h; decide
    · subst h; decide
    · subst h; decide
  unfold pitf_write
  rw [if_neg haddr.1, haddr.2]

theorem counters_onCounter (ch : Nat) (f : Ctrf → Ctrf) (dev : Device) :
    (onCounter ch f dev).counters ch = f (dev.counters ch) := Function.update_self ..

theorem counters_data {ch : Nat} (hch : ch < 3) (bytes : List (BitVec 8)) : ∀ dev : Device,
    (bytes.foldl (fun dev byte => pitf_write (BitVec.ofNat 16 (0x40 + ch)) byte dev) dev).counters
      ch = bytes.foldl (fun c byte => dataWrite byte c) (dev.counters ch) := by
  induction bytes with
  | nil => intro dev; rfl
  | cons byte bytes ih =>
    intro dev
    rw [List.foldl_cons, List.foldl_cons, ih, pitf_write_data hch, counters_onCounter]

theorem counters_control {ch : Nat} {value : BitVec 8} (hch : ch < 3)
    (hsel : (value >>> 6).toNat = ch) (hp : value &&& 0x30 ≠ 0) (dev : Device) :
    (pitf_write 0x43 value dev).counters ch =
      { programMode value (dev.counters ch) with thit := false } := by
  have haddr : (0x43 : BitVec 16) &&& 3 = 3 := by decide
  unfold pitf_write controlWrite
  rw [if_pos haddr]
  simp only
  rw [if_neg (by omega), if_neg hp, hsel]
  exact counters_onCounter ch (fun ctr => { programMode value ctr with thit := false }) dev

theorem started_program {ch : Nat} {value : BitVec 8} (n : BitVec 16) (dev : Device)
    (hch : ch < 3) (hsel : (value >>> 6).toNat = ch) (hp : value &&& 0x30 ≠ 0)
    (hm : modeOf value = 0 ∨ modeOf value = 2 ∨ modeOf value = 3)
    (hg : (dev.counters ch).gate = true) :
    Started (modeOf value) (clocks false (accessOf value) n)
      ((pitf_program ch value n dev).counters ch) := by
  unfold pitf_program
  rw [counters_data hch, counters_control hch hsel hp]
  obtain ⟨hwaiting, hwm⟩ := waiting_programMode hp hg
  exact started_countBytes n hwaiting hwm (pit_exact.access_cases hp) hm

/-! ## Edges of the fast model -/

/-- OUT of a counter after `k` clocks. -/
def pitfLevel (ch : Nat) (dev : Device) (k : Nat) : Bool :=
  (((pitf_ctr_clock ch)^[k] dev).counters ch).out

/-- The rising edges that clock `k + 1` tells `out_func` of. -/
def pitfRises (ch : Nat) (dev : Device) (k : Nat) : Nat :=
  edges (((pitf_ctr_clock ch)^[k + 1] dev).counters ch) -
    edges (((pitf_ctr_clock ch)^[k] dev).counters ch)

theorem counters_clocks (ch : Nat) (dev : Device) (k : Nat) :
    ((pitf_ctr_clock ch)^[k] dev).counters ch = clock^[k] (dev.counters ch) := by
  induction k with
  | zero => rfl
  | succ k ih =>
    rw [Function.iterate_succ_apply', Function.iterate_succ_apply', ← ih]
    exact counters_onCounter ch clock _

theorem pitfRises_eq (ch : Nat) (dev : Device) : pitfRises ch dev = rising (dev.counters ch) := by
  funext k
  unfold pitfRises rising
  rw [counters_clocks, counters_clocks]

/-! ## Edges of the exact model -/

/-- A control word and one complete count. -/
def pitx_program (ch : Nat) (value : BitVec 8) (n : BitVec 16) (pit : pit_exact.Device) :
    pit_exact.Device :=
  pit_exact.run pit (.control_write value :: pit_exact.callsOf ch (accessOf value) (.write n))

/-- OUT of a channel after `k` ticks. -/
def pitxLevel (ch : Nat) (pit : pit_exact.Device) (k : Nat) : Bool :=
  pit_exact.pitx_get_output ch (pit_exact.run pit (List.replicate k (.tick_channel ch)))

theorem channel_program {ch : Nat} {value : BitVec 8} (n : BitVec 16) (pit : pit_exact.Device)
    (hch : ch < 3) (hsel : (value >>> 6).toNat = ch) (hp : value &&& 0x30 ≠ 0) :
    (pitx_program ch value n pit).channel ch =
      pit_exact.channelEvent (accessOf value)
        (pit_exact.program_mode value (pit.channel ch)) (.write n) := by
  unfold pitx_program
  rw [pit_exact.run_cons, pit_exact.run_callsOf hch, pit_exact.call_channel hch]
  unfold pit_exact.channelCall
  simp only
  rw [if_neg (by omega), if_pos hsel, if_neg hp]

section

variable {ch : Nat} {value : BitVec 8} (n : BitVec 16) (pit : pit_exact.Device)

/-- The channel after a control word and a whole count. -/
theorem programmed_channel (hp : value &&& 0x30 ≠ 0) (c : pit_exact.Channel)
    (hm : modeOf value = 2 ∨ modeOf value = 3) :
    pit_exact.channelEvent (accessOf value) (pit_exact.program_mode value c) (.write n) =
      pit_exact.finalize_write
        { pit_exact.program_mode value c with
          count_register := written (accessOf value) n
          write_phase := 0 } := by
  have h0 : ¬(accessOf value = 3 ∧ (pit_exact.program_mode value c).mode = 0) := by
    intro hc
    have hmode : (pit_exact.program_mode value c).mode = modeOf value := rfl
    omega
  have haccess : (pit_exact.program_mode value c).rw_mode = accessOf value := rfl
  refine (pit_exact.write_eq haccess (pit_exact.access_cases hp) rfl n).trans ?_
  rw [if_neg h0, if_neg h0]
  rfl

/-- What the exact model knows of its count then. -/
def programmedOf (value : BitVec 8) (n : BitVec 16) : pit_exact.Programmed where
  mode := modeOf value
  bcd := bcdOf value
  access := accessOf value
  pending := none
  last := some (written (accessOf value) n)

theorem whole_program (hch : ch < 3) (hsel : (value >>> 6).toNat = ch)
    (hp : value &&& 0x30 ≠ 0) (hb : bcdOf value = false)
    (hm : modeOf value = 2 ∨ modeOf value = 3) (hg : (pit.channel ch).gate = true) :
    let c := (pitx_program ch value n pit).channel ch
    pit_exact.Whole (programmedOf value n) c ∧ c.gate = true ∧ c.output = true ∧
      c.toggle_on_reload = false ∧ c.state = .PITX_LOAD_NEXT := by
  intro c
  have hc : c = _ :=
    (channel_program n pit hch hsel hp).trans (programmed_channel n hp (pit.channel ch) hm)
  have hgood := pit_exact.good_program_mode value (pit.channel ch)
  have hbinary : bcdOf value = true → decimal.IsDecimal (written (accessOf value) n).toNat := by
    rw [hb]
    nofun
  have hwhole := pit_exact.good_finalize hgood (written (accessOf value) n) hbinary
  rw [← hc] at hwhole
  have hmode : c.mode = 2 ∨ c.mode = 3 := by
    rw [hwhole.follows.mode]
    exact hm
  have hnot15 : ¬(modeOf value = 1 ∨ modeOf value = 5) := by omega
  rw [pit_exact.finalize_eq] at hc
  refine ⟨⟨hwhole, hmode, ?_, rfl⟩, ?_, ?_, ?_, ?_⟩
  · rw [hc]
  · rw [hc]
    exact hg
  · rw [hc]
    exact decide_eq_true (by
      have hm0 : modeOf value ≠ 0 := by omega
      exact hm0)
  · rw [hc]
    rfl
  · rw [hc]
    exact if_neg hnot15

theorem period_program (hb : bcdOf value = false) (hn : 2 ≤ clocks false (accessOf value) n) :
    (programmedOf value n).period (written (accessOf value) n) =
      clocks false (accessOf value) n := by
  have hone : written (accessOf value) n ≠ 1 := by
    intro h1
    unfold clocks at hn
    rw [h1] at hn
    exact absurd hn (by decide)
  have hreplace : pit_exact.replaceOne (modeOf value) (written (accessOf value) n) =
      written (accessOf value) n := if_neg hone
  unfold pit_exact.Programmed.period clocks programmedOf
  simp only [hb, hreplace]

/-- OUT after the first load, and before it. -/
theorem pitxLevel_program (hch : ch < 3) (hsel : (value >>> 6).toNat = ch)
    (hp : value &&& 0x30 ≠ 0) (hb : bcdOf value = false)
    (hm : modeOf value = 2 ∨ modeOf value = 3) (hn : 2 ≤ clocks false (accessOf value) n)
    (hg : (pit.channel ch).gate = true) (k : Nat) :
    pitxLevel ch (pitx_program ch value n pit) k =
      if k = 0 then true
      else pit_exact.waveOutput (modeOf value) (clocks false (accessOf value) n) true (k - 1) := by
  obtain ⟨hwhole, hgate, hout, htoggle, hstate⟩ :=
    whole_program n pit hch hsel hp hb hm hg
  unfold pitxLevel
  by_cases hk : k = 0
  · rw [if_pos hk, hk]
    unfold pit_exact.pitx_get_output
    rw [decide_eq_true hch, Bool.true_and]
    exact hout
  · rw [if_neg hk]
    have hstage : (pit_exact.waveOf ((pitx_program ch value n pit).channel ch)).stage = .load := by
      unfold pit_exact.waveOf
      rw [hstate]
      rfl
    have hload := (waveform.loadsAt_load (g := hwhole.generator)
      (by rw [hstage]; nofun :
        (pit_exact.waveOf ((pitx_program ch value n pit).channel ch)).stage ≠ .counting)).1
    have hlevel : hwhole.generator.loadLevel
        (pit_exact.waveOf ((pitx_program ch value n pit).channel ch)) = true := by
      unfold waveform.Generator.loadLevel
      have ht : (pit_exact.waveOf ((pitx_program ch value n pit).channel ch)).toggle = false :=
        htoggle
      rw [ht, if_neg (by decide : ¬false = true), if_pos hstage, ite_self]
    rw [hlevel] at hload
    have hquiet : ∀ c ∈ List.replicate k (pit_exact.Call.tick_channel ch),
        pit_exact.quiet ch c = true := by
      intro c hc
      rw [List.eq_of_mem_replicate hc]
      rfl
    have hticks : pit_exact.ticksOf ch (List.replicate k (pit_exact.Call.tick_channel ch)) = k :=
      List.count_replicate_self ..
    have hafter := pit_exact.output_after_load (k := 0) hch hwhole hgate rfl (fun _ => rfl)
      hload hquiet (by rw [hticks]; omega)
    rw [hticks, period_program n hb hn] at hafter
    exact hafter

/-- The waveforms start high, and are low at the end of each period. -/
theorem waveOutput_edge {mode m k : Nat} (hm : mode = 2 ∨ mode = 3) (hn : 2 ≤ m) (hk : 1 ≤ k) :
    pit_exact.waveOutput mode m true (k - 1) = false ∧ pit_exact.waveOutput mode m true k = true ↔
      k % m = 0 := by
  have hlt : k % m < m := Nat.mod_lt _ (by omega)
  have hbefore : (k - 1) % m = if k % m = 0 then m - 1 else k % m - 1 := by
    obtain ⟨j, rfl⟩ := Nat.exists_eq_add_of_le' hk
    have hj : j % m < m := Nat.mod_lt _ (by omega)
    rw [Nat.add_sub_cancel, Nat.add_mod, Nat.mod_eq_of_lt (by omega : 1 < m)]
    by_cases hlast : j % m + 1 = m
    · rw [hlast, Nat.mod_self, if_pos rfl]
      omega
    · rw [Nat.mod_eq_of_lt (by omega : j % m + 1 < m), if_neg (by omega)]
      omega
  rcases hm with hm | hm
  · subst hm
    have hpulse : ∀ j, pit_exact.waveOutput 2 m true j = decide (j % m ≠ m - 1) := fun _ => rfl
    rw [hpulse, hpulse, hbefore, decide_eq_false_iff_not, decide_eq_true_iff]
    split_ifs <;> omega
  · subst hm
    have hsquare : ∀ j, pit_exact.waveOutput 3 m true j = decide (j % m < (m + 1) / 2) :=
      fun _ => rfl
    rw [hsquare, hsquare, hbefore, decide_eq_false_iff_not, decide_eq_true_iff]
    split_ifs <;> omega

theorem every_pitx (hch : ch < 3) (hsel : (value >>> 6).toNat = ch)
    (hp : value &&& 0x30 ≠ 0) (hb : bcdOf value = false)
    (hm : modeOf value = 2 ∨ modeOf value = 3) (hn : 2 ≤ clocks false (accessOf value) n)
    (hg : (pit.channel ch).gate = true) :
    Every (clocks false (accessOf value) n) (clocks false (accessOf value) n)
      (rises (pitxLevel ch (pitx_program ch value n pit))) := by
  intro k
  have hlevel := pitxLevel_program n pit hch hsel hp hb hm hn hg
  unfold rises
  rw [hlevel, hlevel, if_neg (Nat.succ_ne_zero k), Nat.add_sub_cancel]
  by_cases hk : k = 0
  · rw [if_pos hk, if_neg (by simp), if_neg (by omega)]
  · rw [if_neg hk]
    have hedge := waveOutput_edge hm hn (by omega : 1 ≤ k)
    have hiff : k % clocks false (accessOf value) n = 0 ↔
        clocks false (accessOf value) n ≤ k ∧
          (k - clocks false (accessOf value) n) % clocks false (accessOf value) n = 0 := by
      constructor
      · intro h0
        have hle : clocks false (accessOf value) n ≤ k := by
          by_contra hlt
          rw [Nat.mod_eq_of_lt (by omega)] at h0
          omega
        exact ⟨hle, by rwa [← Nat.mod_eq_sub_mod hle]⟩
      · rintro ⟨hle, h0⟩
        rwa [Nat.mod_eq_sub_mod hle]
    simp only [hedge, hiff]

/-- The calls of so many ticks. -/
theorem flatMap_ticks (access k : Nat) :
    (List.replicate k .tick).flatMap (pit_exact.callsOf ch access) =
      List.replicate k (.tick_channel ch) := by
  induction k with
  | zero => rfl
  | succ k ih =>
    rw [List.replicate_succ, List.replicate_succ, List.flatMap_cons, ih]
    rfl

/-- In mode 0 OUT rises in the clock after the count. -/
theorem pitxLevel_mode_0 (hch : ch < 3) (hsel : (value >>> 6).toNat = ch)
    (hp : value &&& 0x30 ≠ 0) (hb : bcdOf value = false) (hm : modeOf value = 0)
    (hn : 1 ≤ clocks false (accessOf value) n) (hg : (pit.channel ch).gate = true) (k : Nat) :
    pitxLevel ch (pitx_program ch value n pit) k =
      decide (clocks false (accessOf value) n < k) := by
  have hvalid : pit_exact.ValidEvents (bcdOf value) (accessOf value)
      (.write n :: List.replicate k .tick) := by
    intro m _ hbcd
    rw [hb] at hbcd
    cases hbcd
  have hlevel := (pit_exact.output_iff pit ch value hch hsel hp (.inl hm) hvalid).mpr (by
    rintro es - ⟨hs, -⟩
    rw [hm] at hs
    cases hs) _ (List.prefix_refl _)
  rw [List.flatMap_cons, flatMap_ticks, ← List.cons_append, pit_exact.run_append] at hlevel
  refine hlevel.trans ?_
  -- the one-shot after its count
  have hrun : pit_exact.shotRun (pit_exact.shotOf 0 (accessOf value) false) false (accessOf value)
      (pit_exact.programmedShot 0 true) (.write n :: List.replicate k .tick) =
        (pit_exact.shotOf 0 (accessOf value) false).tick^[k]
          ⟨.loading, false, true, clocks false (accessOf value) n⟩ := by
    rw [← one_shot.run_ticks]
    unfold pit_exact.shotRun one_shot.OneShot.run
    rw [List.map_cons, List.map_replicate, List.foldl_cons]
    congr 1
    unfold one_shot.OneShot.step one_shot.Event.map one_shot.OneShot.write
    simp [pit_exact.shotOf, pit_exact.programmedShot]
  rw [hm, hb, hg, hrun]
  exact one_shot.out_ticks rfl rfl rfl rfl hn k

end

/-! ## The law -/

/-- In mode 0 both have one edge. In mode 2 they keep the same distances, and in mode 3 their
high halves are as long too. -/
def Agree (mode : Nat) (f g : Nat → Nat) (u v : Nat → Bool) : Prop :=
  if mode = 0 then Once f ∧ Once g
  else if mode = 3 then SameWaves f g u v
  else SameDistances f g

section

variable {ch : Nat} {value : BitVec 8} {n : BitVec 16} {dev : Device} {pit : pit_exact.Device}

theorem once_mode_0 (hch : ch < 3) (hsel : (value >>> 6).toNat = ch) (hp : value &&& 0x30 ≠ 0)
    (hb : bcdOf value = false) (hm : modeOf value = 0)
    (hn : 2 ≤ clocks false (accessOf value) n) (hf : (dev.counters ch).gate = true)
    (hx : (pit.channel ch).gate = true) :
    Once (pitfRises ch (pitf_program ch value n dev)) ∧
      Once (rises (pitxLevel ch (pitx_program ch value n pit))) := by
  constructor
  · obtain ⟨hlive, hout, hcount, -⟩ := started_program n dev hch hsel hp (.inl hm) hf
    rw [hm] at hlive hout hcount
    rw [pitfRises_eq]
    exact rising_mode_0 hlive (by omega) hout hcount
  · refine ⟨clocks false (accessOf value) n, fun k => ?_⟩
    have hlevel := pitxLevel_mode_0 n pit hch hsel hp hb hm (by omega) hx
    unfold rises
    simp only [hlevel, decide_eq_false_iff_not, decide_eq_true_iff]
    split_ifs <;> omega

theorem same_mode_2 (hch : ch < 3) (hsel : (value >>> 6).toNat = ch) (hp : value &&& 0x30 ≠ 0)
    (hb : bcdOf value = false) (hm : modeOf value = 2)
    (hn : 2 ≤ clocks false (accessOf value) n) (hf : (dev.counters ch).gate = true)
    (hx : (pit.channel ch).gate = true) :
    SameDistances (pitfRises ch (pitf_program ch value n dev))
      (rises (pitxLevel ch (pitx_program ch value n pit))) := by
  obtain ⟨hlive, -, hcount, -⟩ := started_program n dev hch hsel hp (.inr (.inl hm)) hf
  rw [hm] at hlive hcount
  rw [pitfRises_eq]
  exact sameDistances_of_every (rising_mode_2 hlive hn hcount)
    (every_pitx n pit hch hsel hp hb (.inl hm) hn hx)

theorem not_same_mode_3 (hch : ch < 3) (hsel : (value >>> 6).toNat = ch)
    (hp : value &&& 0x30 ≠ 0) (hb : bcdOf value = false) (hm : modeOf value = 3)
    (hn : 2 ≤ clocks false (accessOf value) n) (hf : (dev.counters ch).gate = true)
    (hx : (pit.channel ch).gate = true) :
    ¬SameDistances (pitfRises ch (pitf_program ch value n dev))
      (rises (pitxLevel ch (pitx_program ch value n pit))) := by
  obtain ⟨hlive, hout, hcount, hnew⟩ := started_program n dev hch hsel hp (.inr (.inr hm)) hf
  rw [hm] at hlive hout hcount hnew
  simp only [true_and] at hnew
  obtain ⟨hedge, hmissed⟩ := rising_mode_3 hlive hn hout hcount hnew
  rw [pitfRises_eq]
  exact not_sameDistances_of_missed (every_pitx n pit hch hsel hp hb (.inr hm) hn hx)
    (by rw [hedge]; decide) hmissed

end

/-- From whatever states, after one control word and one complete count of 2 and more: the
models agree in modes 0 and 2, and never in mode 3. -/
theorem the_models_agree_but_in_mode_3 (dev : Device) (pit : pit_exact.Device) (ch : Nat)
    (value : BitVec 8) (n : BitVec 16) (hch : ch < 3) (hsel : (value >>> 6).toNat = ch)
    (hp : value &&& 0x30 ≠ 0) (hb : bcdOf value = false)
    (hm : modeOf value = 0 ∨ modeOf value = 2 ∨ modeOf value = 3)
    (hn : 2 ≤ clocks false (accessOf value) n) (hf : (dev.counters ch).gate = true)
    (hx : (pit.channel ch).gate = true) :
    let fast := pitf_program ch value n dev
    let accurate := pitx_program ch value n pit
    Agree (modeOf value) (pitfRises ch fast) (rises (pitxLevel ch accurate)) (pitfLevel ch fast)
        (pitxLevel ch accurate) ↔
      modeOf value ≠ 3 := by
  intro fast accurate
  unfold Agree
  rcases hm with hm | hm | hm
  · rw [hm, if_pos rfl]
    exact iff_of_true (once_mode_0 hch hsel hp hb hm hn hf hx) (by decide)
  · rw [hm, if_neg (by decide), if_neg (by decide)]
    exact iff_of_true (same_mode_2 hch hsel hp hb hm hn hf hx) (by decide)
  · rw [hm, if_neg (by decide), if_pos rfl]
    have hnot := not_same_mode_3 hch hsel hp hb hm hn hf hx
    exact iff_of_false (fun h => hnot h.sameDistances) (fun h => h rfl)

/-- A fast model after its reset, with the gate of counter 0 high. -/
def fast_8254 : Device := pitf_ctr_set_gate 0 true (pitf_reset true)

/-- The same of the exact model. -/
def exact_8254 : pit_exact.Device :=
  pit_exact.pitx_set_gate 0 true (pit_exact.pitx_reset .PITX_8254)

/-- A rate generator of 2. -/
theorem the_models_agree_on_a_rate :
    Agree 2 (pitfRises 0 (pitf_program 0 0x34 2 fast_8254))
      (rises (pitxLevel 0 (pitx_program 0 0x34 2 exact_8254)))
      (pitfLevel 0 (pitf_program 0 0x34 2 fast_8254))
      (pitxLevel 0 (pitx_program 0 0x34 2 exact_8254)) := by
  have h := the_models_agree_but_in_mode_3 fast_8254 exact_8254 0 0x34 2 (by decide) (by decide)
    (by decide) (by decide) (by decide) (by decide) (by decide) (by decide)
  exact h.mpr (by decide)

/-- A square wave of 4. -/
theorem the_models_disagree_on_a_square_wave :
    ¬Agree 3 (pitfRises 0 (pitf_program 0 0x36 4 fast_8254))
      (rises (pitxLevel 0 (pitx_program 0 0x36 4 exact_8254)))
      (pitfLevel 0 (pitf_program 0 0x36 4 fast_8254))
      (pitxLevel 0 (pitx_program 0 0x36 4 exact_8254)) := by
  intro h
  have hsame : SameWaves _ _ _ _ := h
  exact not_same_mode_3 (by decide) (by decide) (by decide) (by decide) (by decide) (by decide)
    (by decide) (by decide) hsame.sameDistances

end blumach.pit_fast
