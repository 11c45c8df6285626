-- Histories of `pit_fast.c` with and without the latch commands, the read-back commands and the
-- reads: when the level OUT is the same, and when the reads stay as they are programmed.
import BluMach.PitFastLatches

namespace blumach.pit_fast.timed

open observers

variable {τ : Type} (ops : TimerOps τ)

/-! ## What observes -/

/-- The latch command for a counter. -/
def latchCommand (i : Nat) : Event τ → Bool
  | .write addr val => addr &&& 3 = 3 ∧ (val >>> 6).toNat = i ∧ i ≠ 3 ∧ val &&& 0x30 = 0
  | _ => false

/-- The read-back command, with a latch of the count of the counter. -/
def countReadBack (i : Nat) : Event τ → Bool
  | .write addr val =>
    addr &&& 3 = 3 ∧ (val >>> 6).toNat = 3 ∧ val &&& 0x20 = 0 ∧ i < 3 ∧
      val &&& ((2 : BitVec 8) <<< i) ≠ 0
  | _ => false

/-- The latch commands, the read-back commands and the reads. -/
def observes : Event τ → Bool
  | .write addr val => addr &&& 3 = 3 ∧ ((val >>> 6).toNat = 3 ∨ val &&& 0x30 = 0)
  | .read _ => true
  | _ => false

/-- The counter that a write programs, with a control word or with a byte of its count. -/
def programs (i : Nat) : Event τ → Bool
  | .write addr val =>
    if addr &&& 3 = 3 then (val >>> 6).toNat = i ∧ i ≠ 3 ∧ val &&& 0x30 ≠ 0
    else (addr &&& 3).toNat = i
  | _ => false

/-- The access that a control word programs: 1 for the low byte, 2 for the high byte. -/
def access (ctr : Ctrf τ) : Nat := (ctr.ctrl >>> 4 &&& 3).toNat

/-- The reads that are not latched are as programmed: one byte of the count, or the low byte (3)
and then the high byte (0). -/
def AsProgrammed (ctr : Ctrf τ) : Prop :=
  if access ctr = 1 ∨ access ctr = 2 then ctr.rm = access ctr else ctr.rm = 3 ∨ ctr.rm = 0

/-- A latch command is not seen from OUT: the terminal count has not been, or the counter rests
at it with OUT high. Where the counter is programmed later on, a timer has to count for it. -/
def Unseen (programmed : Bool) (x : Counting τ) : Prop :=
  x.thit = false ∨ AtRest x ∧ (programmed = true → x.using_timer = true)

/-- What is asked of an event, before the events that follow it. -/
structure Harmless (e : Event τ) (es : List (Event τ)) (dev : Device τ) : Prop where
  unseen : ∀ i, latchCommand i e = true → Unseen (es.any (programs i)) (dev.counters i).toCounting
  bytes : ∀ i, latchCommand i e = true ∨ dev.pit_8254 = true ∧ countReadBack i e = true →
    access (dev.counters i) ≠ 1 ∧ access (dev.counters i) ≠ 2

/-- The two promises: OUT changes as it does without the observers, and the reads stay as they
are programmed. -/
def OnlyObserved (es : List (Event τ)) (dev : Device τ) : Prop :=
  (∀ i, ((run ops es dev).counters i).changes =
      ((run ops (without observes es) dev).counters i).changes) ∧
    ((∀ i, AsProgrammed (dev.counters i)) → ∀ i, AsProgrammed ((run ops es dev).counters i))

/-! ## Devices -/

variable {dev dev' : Device τ} {e : Event τ} {es : List (Event τ)}

theorem onCounter_same (i : Nat) (f : Ctrf τ → Ctrf τ) (dev : Device τ) :
    (onCounter i f dev).counters i = f (dev.counters i) := Function.update_self ..

theorem onCounter_other {i j : Nat} (hij : i ≠ j) (f : Ctrf τ → Ctrf τ) (dev : Device τ) :
    (onCounter j f dev).counters i = dev.counters i := Function.update_of_ne hij ..

/-- Counter by counter, the two devices are alike for what is to follow. -/
def Related (es : List (Event τ)) (dev dev' : Device τ) : Prop :=
  dev.pit_8254 = dev'.pit_8254 ∧
    ∀ i, Alike (es.any (programs i)) (dev.counters i).toCounting (dev'.counters i).toCounting

theorem Related.tail (h : Related (e :: es) dev dev') : Related es dev dev' :=
  ⟨h.1, fun i => (h.2 i).mono fun hp => by rw [List.any_cons, hp, Bool.or_true]⟩

/-- A change of one counter, in both devices. -/
theorem Related.on {j : Nat} {f g : Ctrf τ → Ctrf τ} (h : Related es dev dev')
    (hj : Alike (es.any (programs j)) (f (dev.counters j)).toCounting
      (g (dev'.counters j)).toCounting) :
    Related es (onCounter j f dev) (onCounter j g dev') := by
  refine ⟨h.1, fun i => ?_⟩
  by_cases hij : i = j
  · subst hij
    rw [onCounter_same, onCounter_same]
    exact hj
  · rw [onCounter_other hij, onCounter_other hij]
    exact h.2 i

/-- A change of one counter, in the device with the observers. -/
theorem Related.on_right {j : Nat} {g : Ctrf τ → Ctrf τ} (h : Related es dev dev')
    (hj : Alike (es.any (programs j)) (dev.counters j).toCounting
      (g (dev'.counters j)).toCounting) :
    Related es dev (onCounter j g dev') := by
  refine ⟨h.1, fun i => ?_⟩
  by_cases hij : i = j
  · subst hij
    rw [onCounter_same]
    exact hj
  · rw [onCounter_other hij]
    exact h.2 i

/-! ## Events of both histories -/

/-- What a control word makes of the fields that count. -/
def programmed (val : BitVec 8) (x : Counting τ) : Counting τ :=
  { pitf_ctr_set_out (modeBits val ≠ 0)
      { x with wm := (val >>> 4 &&& 3).toNat, m := modeBits val, initial := true } with
    disabled := true
    thit := false }

theorem counting_programMode (val : BitVec 8) (ctr : Ctrf τ) :
    ({ programMode ops val ctr with thit := false } : Ctrf τ).toCounting =
      programmed val ctr.toCounting := by
  unfold programMode
  dsimp only
  split_ifs
  · rfl
  · rfl

theorem alike_programmed (val : BitVec 8) {x y : Counting τ} (h : Alike true x y) :
    Alike true (programmed val x) (programmed val y) := by
  rcases h with rfl | hapart
  · exact Or.inl rfl
  · rw [hapart.thit]
    exact Or.inl rfl

theorem related_step (hbase : observes e = false) (h : Related (e :: es) dev dev') :
    Related es (step ops e dev) (step ops e dev') := by
  have htail := h.tail
  cases e with
  | clock j => exact htail.on (alike_clock ops (htail.2 j))
  | time j elapse => exact htail.on (alike_time ops elapse (htail.2 j))
  | gate j gate => exact htail.on (alike_gate ops gate (htail.2 j))
  | read addr => cases hbase
  | write addr val =>
    have hobserves : ¬ (addr &&& 3 = 3 ∧ ((val >>> 6).toNat = 3 ∨ val &&& 0x30 = 0)) :=
      of_decide_eq_false hbase
    unfold step pitf_write
    dsimp only
    by_cases haddr : addr &&& 3 = 3
    · have hcontrol := fun hor => hobserves ⟨haddr, hor⟩
      have ht : (val >>> 6).toNat ≠ 3 := fun h => hcontrol (Or.inl h)
      have hrw : val &&& 0x30 ≠ 0 := fun h => hcontrol (Or.inr h)
      rw [if_pos haddr, if_pos haddr]
      unfold controlWrite
      dsimp only
      rw [if_neg ht, if_neg ht, if_neg hrw, if_neg hrw]
      have hprograms : ((Event.write addr val : Event τ) :: es).any (programs (val >>> 6).toNat) =
          true := by
        rw [List.any_cons, Bool.or_eq_true]
        refine Or.inl ?_
        unfold programs
        dsimp only
        rw [if_pos haddr]
        exact decide_eq_true ⟨rfl, ht, hrw⟩
      have halike := h.2 (val >>> 6).toNat
      rw [hprograms] at halike
      have hdone := alike_programmed val halike
      rw [← counting_programMode ops, ← counting_programMode ops] at hdone
      have hon := htail.on (f := fun ctr => { programMode ops val ctr with thit := false })
        (g := fun ctr => { programMode ops val ctr with thit := false }) (hdone.mono fun _ => rfl)
      exact ⟨hon.1, hon.2⟩
    · rw [if_neg haddr, if_neg haddr]
      have hprograms : ((Event.write addr val : Event τ) :: es).any (programs (addr &&& 3).toNat) =
          true := by
        rw [List.any_cons, Bool.or_eq_true]
        refine Or.inl ?_
        unfold programs
        dsimp only
        rw [if_neg haddr]
        exact decide_eq_true rfl
      have halike := h.2 (addr &&& 3).toNat
      rw [hprograms] at halike
      exact htail.on ((alike_data ops val halike).mono fun _ => rfl)

/-! ## Events of one history -/

/-- The latch command clears the mark of the terminal count. -/
theorem alike_latched {p : Bool} {x y : Counting τ} (h : Alike p x y) (hunseen : Unseen p y) :
    Alike p x { y with thit := false } := by
  rcases h with rfl | hapart
  · rcases hunseen with hclear | ⟨hrest, husing⟩
    · refine Or.inl ?_
      rw [← hclear]
    · exact Or.inr ⟨rfl, hrest, fun _ => rfl, fun hp => ⟨husing hp, rfl⟩⟩
  · refine Or.inr ⟨?_, hapart.rest, hapart.running, hapart.count⟩
    exact congrArg (fun z : Counting τ => { z with thit := false }) hapart.same

theorem counting_readBack (val : BitVec 8) (ctr : Ctrf τ) :
    (readBack ops val ctr).toCounting = ctr.toCounting := by
  unfold readBack
  dsimp only
  split_ifs <;> rfl

theorem counting_dataRead (ctr : Ctrf τ) :
    (dataRead ops ctr).2.toCounting = ctr.toCounting := by
  have hbyte : ∀ c : Ctrf τ, (readByte c).2.toCounting = c.toCounting := by
    intro c
    unfold readByte
    split <;> rfl
  unfold dataRead
  split_ifs
  · rfl
  · exact hbyte _
  · exact hbyte _

/-- The read-back command goes over the three counters. -/
theorem related_readBack (val : BitVec 8) (is : List Nat) (h : Related es dev dev') :
    Related es dev
      (is.foldl
        (fun dev i =>
          if val &&& ((2 : BitVec 8) <<< i) = 0 then dev else onCounter i (readBack ops val) dev)
        dev') := by
  induction is generalizing dev' with
  | nil => exact h
  | cons i is ih =>
    rw [List.foldl_cons]
    refine ih ?_
    by_cases hi : val &&& ((2 : BitVec 8) <<< i) = 0
    · rw [if_pos hi]
      exact h
    · rw [if_neg hi]
      refine h.on_right ?_
      rw [counting_readBack]
      exact h.2 i

theorem related_observer (hobserves : observes e = true) (hharmless : Harmless e es dev')
    (h : Related (e :: es) dev dev') : Related es dev (step ops e dev') := by
  have htail := h.tail
  cases e with
  | clock j => cases hobserves
  | time j elapse => cases hobserves
  | gate j gate => cases hobserves
  | read addr =>
    unfold step pitf_read
    dsimp only
    by_cases haddr : addr &&& 3 = 3
    · rw [if_pos haddr]
      exact htail
    · rw [if_neg haddr]
      refine htail.on_right ?_
      rw [counting_dataRead]
      exact htail.2 _
  | write addr val =>
    obtain ⟨haddr, hcontrol⟩ := of_decide_eq_true hobserves
    unfold step pitf_write
    dsimp only
    rw [if_pos haddr]
    unfold controlWrite
    dsimp only
    by_cases ht : (val >>> 6).toNat = 3
    · rw [if_pos ht]
      split_ifs
      · exact related_readBack ops val [0, 1, 2] htail
      · exact htail
    · have hrw := hcontrol.resolve_left ht
      rw [if_neg ht, if_pos hrw]
      have hunseen := hharmless.unseen (val >>> 6).toNat
        (decide_eq_true ⟨haddr, rfl, ht, hrw⟩)
      have hon := htail.on_right (j := (val >>> 6).toNat)
        (g := fun ctr => { pitf_ctr_latch_count ops ctr with thit := false })
        (alike_latched (htail.2 _) hunseen)
      exact ⟨hon.1, hon.2⟩

/-! ## Reads -/

theorem asProgrammed_counting {f : Counting τ → Counting τ} {ctr : Ctrf τ}
    (h : AsProgrammed ctr) : AsProgrammed (counting f ctr) := h

/-- The access that follows a read. -/
def nextAccess (rm : Nat) : Nat := if rm = 0 then 3 else if rm = 3 then 0 else rm

theorem readByte_spec (ctr : Ctrf τ) :
    (readByte ctr).2.ctrl = ctr.ctrl ∧ (readByte ctr).2.rm = nextAccess ctr.rm := by
  unfold readByte nextAccess
  split
  · rename_i hrm
    rw [if_pos hrm]
    exact ⟨rfl, rfl⟩
  · rename_i hrm
    rw [if_neg (by omega), if_neg (by omega)]
    exact ⟨rfl, rfl⟩
  · rename_i hrm
    rw [if_neg (by omega), if_neg (by omega)]
    exact ⟨rfl, rfl⟩
  · rename_i hrm
    rw [if_neg (by omega), if_pos hrm]
    exact ⟨rfl, rfl⟩
  · rename_i hzero _ _ hthree
    rw [if_neg hzero, if_neg hthree]
    exact ⟨rfl, rfl⟩

/-- A read of two bytes goes from the low to the high one and back, and a read of one stays. -/
theorem asProgrammed_next {ctr ctr' : Ctrf τ} (hctrl : ctr'.ctrl = ctr.ctrl)
    (hrm : ctr'.rm = nextAccess ctr.rm) (h : AsProgrammed ctr) : AsProgrammed ctr' := by
  have haccess : access ctr' = access ctr := by
    unfold access
    rw [hctrl]
  unfold AsProgrammed at h ⊢
  rw [haccess, hrm]
  unfold nextAccess
  split_ifs at h ⊢ <;> omega

theorem asProgrammed_dataRead {ctr : Ctrf τ} (h : AsProgrammed ctr) :
    AsProgrammed (dataRead ops ctr).2 := by
  have hbyte : ∀ c : Ctrf τ, AsProgrammed c → AsProgrammed (readByte c).2 := fun c hc =>
    asProgrammed_next (readByte_spec c).1 (readByte_spec c).2 hc
  unfold dataRead
  split_ifs
  · exact h
  · exact hbyte _ h
  · exact hbyte _ h

/-- A latch starts at the low byte of two. -/
theorem asProgrammed_latched {ctr ctr' : Ctrf τ} (hctrl : ctr'.ctrl = ctr.ctrl)
    (hrm : ctr'.rm = 3) (hbytes : access ctr ≠ 1 ∧ access ctr ≠ 2) : AsProgrammed ctr' := by
  have haccess : access ctr' = access ctr := by
    unfold access
    rw [hctrl]
  unfold AsProgrammed
  rw [haccess, if_neg (not_or.mpr hbytes)]
  exact Or.inl hrm

theorem programMode_spec (val : BitVec 8) (ctr : Ctrf τ) :
    (programMode ops val ctr).ctrl = val ∧
      (programMode ops val ctr).rm =
        if (val >>> 4 &&& 3).toNat = 0 then 3 else (val >>> 4 &&& 3).toNat := by
  unfold programMode counting
  dsimp only
  split_ifs
  · exact ⟨rfl, rfl⟩
  · exact ⟨rfl, rfl⟩

theorem asProgrammed_programMode (val : BitVec 8) (ctr : Ctrf τ) :
    AsProgrammed ({ programMode ops val ctr with thit := false } : Ctrf τ) := by
  obtain ⟨hctrl, hrm⟩ := programMode_spec ops val ctr
  have hlt : (val >>> 4 &&& 3).toNat ≤ 3 := by
    rw [BitVec.toNat_and]
    exact Nat.and_le_right
  unfold AsProgrammed access
  dsimp only
  rw [hctrl, hrm]
  split_ifs <;> omega

/-- A change of one counter that keeps the reads as programmed. -/
theorem asProgrammed_on {j : Nat} {f : Ctrf τ → Ctrf τ}
    (hf : AsProgrammed (dev.counters j) → AsProgrammed (f (dev.counters j)))
    (h : ∀ i, AsProgrammed (dev.counters i)) :
    ∀ i, AsProgrammed ((onCounter j f dev).counters i) := by
  intro i
  by_cases hij : i = j
  · subst hij
    rw [onCounter_same]
    exact hf (h i)
  · rw [onCounter_other hij]
    exact h i

theorem asProgrammed_readBack {val : BitVec 8} {ctr : Ctrf τ}
    (hbytes : val &&& 0x20 = 0 → access ctr ≠ 1 ∧ access ctr ≠ 2) (h : AsProgrammed ctr) :
    AsProgrammed (readBack ops val ctr) := by
  have hstatus : ∀ c : Ctrf τ, AsProgrammed c → AsProgrammed (pitf_ctr_latch_status c) :=
    fun _ hc => hc
  unfold readBack
  dsimp only
  by_cases hcount : val &&& 0x20 = 0
  · have hlatched : AsProgrammed (pitf_ctr_latch_count ops ctr) :=
      asProgrammed_latched rfl rfl (hbytes hcount)
    rw [if_pos hcount]
    split_ifs
    · exact hstatus _ hlatched
    · exact hlatched
  · rw [if_neg hcount]
    split_ifs
    · exact hstatus _ h
    · exact h

theorem asProgrammed_readBacks {val : BitVec 8} {is : List Nat} (his : is.Nodup)
    (hbytes : ∀ i ∈ is, val &&& ((2 : BitVec 8) <<< i) ≠ 0 → val &&& 0x20 = 0 →
      access (dev.counters i) ≠ 1 ∧ access (dev.counters i) ≠ 2)
    (h : ∀ i, AsProgrammed (dev.counters i)) :
    ∀ i, AsProgrammed
      ((is.foldl
        (fun dev i =>
          if val &&& ((2 : BitVec 8) <<< i) = 0 then dev else onCounter i (readBack ops val) dev)
        dev).counters i) := by
  induction is generalizing dev with
  | nil => exact h
  | cons j is ih =>
    obtain ⟨hj, his⟩ := List.nodup_cons.mp his
    rw [List.foldl_cons]
    by_cases hoff : val &&& ((2 : BitVec 8) <<< j) = 0
    · rw [if_pos hoff]
      exact ih his (fun i hi => hbytes i (List.mem_cons_of_mem _ hi)) h
    · rw [if_neg hoff]
      refine ih his (fun i hi => ?_) (asProgrammed_on ?_ h)
      · have hij : i ≠ j := fun hij => hj (hij ▸ hi)
        rw [onCounter_other hij]
        exact hbytes i (List.mem_cons_of_mem _ hi)
      · exact asProgrammed_readBack ops (hbytes j List.mem_cons_self hoff)

theorem asProgrammed_step (hharmless : Harmless e es dev)
    (h : ∀ i, AsProgrammed (dev.counters i)) :
    ∀ i, AsProgrammed ((step ops e dev).counters i) := by
  cases e with
  | clock j => exact asProgrammed_on (f := counting (clock ops)) asProgrammed_counting h
  | time j elapse =>
    exact asProgrammed_on (f := counting (timePasses ops elapse)) asProgrammed_counting h
  | gate j gate => exact asProgrammed_on (f := counting (setGate ops gate)) asProgrammed_counting h
  | read addr =>
    unfold step pitf_read
    dsimp only
    by_cases haddr : addr &&& 3 = 3
    · rw [if_pos haddr]
      exact h
    · rw [if_neg haddr]
      exact asProgrammed_on (f := fun ctr => (dataRead ops ctr).2) (asProgrammed_dataRead ops) h
  | write addr val =>
    unfold step pitf_write
    dsimp only
    by_cases haddr : addr &&& 3 = 3
    · rw [if_pos haddr]
      unfold controlWrite
      dsimp only
      by_cases ht : (val >>> 6).toNat = 3
      · rw [if_pos ht]
        by_cases h8254 : dev.pit_8254 = true
        · rw [if_pos h8254]
          refine asProgrammed_readBacks ops (by decide) (fun i hi hsel hcount => ?_) h
          have hlt : i < 3 := by
            simp only [List.mem_cons, List.not_mem_nil, or_false] at hi
            omega
          exact hharmless.bytes i
            (Or.inr ⟨h8254, decide_eq_true ⟨haddr, ht, hcount, hlt, hsel⟩⟩)
        · rw [if_neg h8254]
          exact h
      · rw [if_neg ht]
        by_cases hrw : val &&& 0x30 = 0
        · rw [if_pos hrw]
          have hbytes := hharmless.bytes (val >>> 6).toNat
            (Or.inl (decide_eq_true ⟨haddr, rfl, ht, hrw⟩))
          exact asProgrammed_on
            (f := fun ctr => { pitf_ctr_latch_count ops ctr with thit := false })
            (fun _ => asProgrammed_latched rfl rfl hbytes) h
        · rw [if_neg hrw]
          exact asProgrammed_on (f := fun ctr => { programMode ops val ctr with thit := false })
            (fun _ => asProgrammed_programMode ops val _) h
    · rw [if_neg haddr]
      exact asProgrammed_on (f := counting (dataWrite ops val)) asProgrammed_counting h

/-! ## Histories -/

theorem related_refl (es : List (Event τ)) (dev : Device τ) : Related es dev dev :=
  ⟨rfl, fun _ => Or.inl rfl⟩

/-- Where each latch command finds its counter before the terminal count, or at rest at it, and
each latch of a count finds reads of two bytes, the observers only observe. -/
theorem observers_only_observe (es : List (Event τ)) (dev : Device τ)
    (hharmless : Meets (step ops) Harmless es dev) : OnlyObserved ops es dev := by
  refine ⟨fun i => ?_, fun hreads => ?_⟩
  · have hrelated := @related_without _ _ (step ops) observes Harmless Related
      (fun e es s s' he hR => related_step ops he hR)
      (fun e es s s' he hmeets hR => related_observer ops he hmeets hR)
      es dev dev (related_refl es dev) hharmless
    exact (hrelated.2 i).changes.symm
  · exact @invariant _ _ (step ops) Harmless (fun dev => ∀ i, AsProgrammed (dev.counters i))
      (fun e es s hmeets hP => asProgrammed_step ops hmeets hP) es dev hreads hharmless

/-! ## Latches that are seen -/

theorem setRunning_changes (x : Counting τ) : (setRunning ops x).changes = x.changes := by
  unfold setRunning pitf_dump_and_disable_timer
  dsimp only
  split_ifs <;> rfl

theorem advance_changes (k : Int) (x : Counting τ) : (advance ops k x).changes = x.changes := by
  unfold advance
  split_ifs <;> rfl

/-- The calls of `out_func` at an expiry, in the modes that count once. -/
theorem overMode_calls {x : Counting τ} (hmode : x.m ≠ 2 ∧ x.m ≠ 3) :
    ∃ k y, overMode ops x = advance ops k y ∧
      y.changes =
        if x.thit = true then x.changes
        else if x.m = 0 ∨ x.m = 1 then (pitf_ctr_set_out true x).changes
        else (pitf_ctr_set_out true (pitf_ctr_set_out false x)).changes := by
  obtain ⟨m, wm, gate, out, newcount, using_timer, enabled, disabled, initial, thit, running, count,
    l, pit_const, timer, changes⟩ := x
  dsimp only at hmode
  fin_cases m
  · cases thit <;> exact ⟨_, _, rfl, rfl⟩
  · cases thit <;> exact ⟨_, _, rfl, rfl⟩
  · exact absurd rfl hmode.1
  · exact absurd rfl hmode.2
  · cases thit <;> cases newcount <;> exact ⟨_, _, rfl, rfl⟩
  · cases thit <;> exact ⟨_, _, rfl, rfl⟩

theorem rise_changes {x : Counting τ} (hout : x.out = false) :
    x.changes.length < (pitf_ctr_set_out true x).changes.length := by
  unfold pitf_ctr_set_out
  rw [hout, if_pos (by decide), List.length_append]
  exact Nat.lt_succ_self _

theorem strobe_changes (x : Counting τ) :
    x.changes.length < (pitf_ctr_set_out true (pitf_ctr_set_out false x)).changes.length := by
  refine Nat.lt_of_le_of_lt ?_ (rise_changes rfl)
  unfold pitf_ctr_set_out
  dsimp only
  split_ifs
  · rw [List.length_append]
    exact Nat.le_add_right _ _
  · exact Nat.le_refl _

/-- A latch command at the terminal count of a counter that does not rest is seen from OUT, at
the next expiry of the timer. -/
theorem latch_seen {x : Counting τ} (hthit : x.thit = true) (hmode : x.m ≠ 2 ∧ x.m ≠ 3)
    (hoff : x.disabled = false) (hrest : ¬ AtRest x) :
    (pitf_over ops { x with thit := false }).changes ≠ (pitf_over ops x).changes := by
  obtain ⟨k, y, hover, hkept⟩ := overMode_calls ops hmode
  obtain ⟨k', y', hover', hmore⟩ := @overMode_calls _ ops { x with thit := false } hmode
  rw [if_pos hthit] at hkept
  rw [if_neg Bool.false_ne_true] at hmore
  have hlonger : x.changes.length < y'.changes.length := by
    rw [hmore]
    by_cases honce : x.m = 0 ∨ x.m = 1
    · have hlow : x.out = false := Bool.eq_false_of_not_eq_true fun hout => hrest ⟨honce, hout⟩
      rw [if_pos honce]
      exact @rise_changes _ { x with thit := false } hlow
    · rw [if_neg honce]
      exact strobe_changes { x with thit := false }
  unfold pitf_over
  rw [if_neg (by rw [hoff]; decide), if_neg (by rw [hoff]; decide), setRunning_changes,
    setRunning_changes, hover, hover', advance_changes, advance_changes, hkept]
  exact fun h => Nat.lt_irrefl _ (Nat.lt_of_lt_of_eq hlonger (congrArg List.length h))

/-! ## Three histories -/

/-- A timer that is always on. Its expiries are events of the history. -/
def onTimer : TimerOps Unit where
  set_delay_u64 := fun _ t => t
  advance_u64 := fun _ t => t
  disable := fun t => t
  is_enabled := fun _ => true
  get_remaining_u64 := fun _ => 0

def expiry : Event Unit := .time 0 fun t => (t, true)

/-- Counter 0 in mode 4 with a count of 4, and a latch command between two expiries. -/
def strobeTwice : List (Event Unit) :=
  [.write 3 0x38, .write 0 4, .write 0 0, .gate 0 true, expiry, .write 3 0x00, expiry]

/-- Counter 0 in mode 2 with reads of the low byte, and a latch that is read. -/
def latchLow : List (Event Unit) :=
  [.write 3 0x14, .write 0 4, .write 3 0x00, .read 0, .read 0]

/-- The second history has its strobe again, and the third reads both bytes from then on. -/
theorem latches_are_seen :
    ¬ OnlyObserved onTimer strobeTwice (pitf_reset true 1 ()) ∧
      ¬ OnlyObserved onTimer latchLow (pitf_reset true 1 ()) := by
  refine ⟨fun h => ?_, fun h => ?_⟩
  · have hchanges := h.1 0
    revert hchanges
    decide
  · have hreset : AsProgrammed (ctr_reset 1 ()) := by
      unfold AsProgrammed
      decide
    have hreads := h.2 (fun _ => hreset) 0
    revert hreads
    unfold AsProgrammed
    decide

theorem countReadBack_counter {i : Nat} {addr : BitVec 16} {val : BitVec 8}
    (h : countReadBack i (Event.write addr val : Event τ) = true) : (val >>> 6).toNat = 3 := by
  unfold countReadBack at h
  exact (of_decide_eq_true h).2.1

/-- What latches no count is harmless. -/
theorem harmless_of_none (hlatch : ∀ i, latchCommand i e = false)
    (hback : ∀ i, countReadBack i e = false) : Harmless e es dev := by
  refine ⟨fun i hi => ?_, fun i hi => ?_⟩
  · exact Bool.noConfusion ((hlatch i).symm.trans hi)
  · rcases hi with hi | ⟨-, hi⟩
    · exact Bool.noConfusion ((hlatch i).symm.trans hi)
    · exact Bool.noConfusion ((hback i).symm.trans hi)

theorem harmless_count {addr : BitVec 16} {val : BitVec 8} (haddr : addr &&& 3 ≠ 3) :
    Harmless (.write addr val) es dev :=
  harmless_of_none (fun _ => decide_eq_false fun h => haddr h.1) fun _ =>
    decide_eq_false fun h => haddr h.1

theorem harmless_control {addr : BitVec 16} {val : BitVec 8} (hval : val &&& 0x30 ≠ 0)
    (hctr : (val >>> 6).toNat ≠ 3) : Harmless (.write addr val) es dev :=
  harmless_of_none (fun _ => decide_eq_false fun h => hval h.2.2.2) fun _ =>
    decide_eq_false fun h => hctr h.2.1

/-- Counter 0 in mode 0 with a count of 4, and a latch before the terminal count. Behind the latch
the count runs out, the gate changes and a count of 9 is written and runs out. -/
def latchEarly : List (Event Unit) :=
  [.write 3 0x30, .write 0 4, .write 0 0, .gate 0 true, .write 3 0x00, .read 0, .read 0, expiry,
    .gate 0 false, .write 0 9, .write 0 0, .gate 0 true, expiry]

theorem an_early_latch_is_not_seen : OnlyObserved onTimer latchEarly (pitf_reset true 1 ()) := by
  refine observers_only_observe onTimer latchEarly _ ⟨harmless_control (by decide) (by decide),
    harmless_count (by decide), harmless_count (by decide),
    harmless_of_none (fun _ => rfl) fun _ => rfl, ⟨fun i hi => ?_, ?_⟩,
    harmless_of_none (fun _ => rfl) fun _ => rfl, harmless_of_none (fun _ => rfl) fun _ => rfl,
    harmless_of_none (fun _ => rfl) fun _ => rfl, harmless_of_none (fun _ => rfl) fun _ => rfl,
    harmless_count (by decide), harmless_count (by decide),
    harmless_of_none (fun _ => rfl) fun _ => rfl, harmless_of_none (fun _ => rfl) fun _ => rfl,
    trivial⟩
  · obtain ⟨-, rfl, -⟩ := of_decide_eq_true hi
    exact Or.inl rfl
  · rintro i (hi | ⟨-, hi⟩)
    · obtain ⟨-, rfl, -⟩ := of_decide_eq_true hi
      decide
    · exact absurd (countReadBack_counter hi) (by decide)

end blumach.pit_fast.timed
