-- Runs of transfers on one channel: the terminal count comes with the last unit of each pass,
-- and when the results of the calls tell of it.
import BluMach.DmaLaws

namespace blumach.dma

variable {Mem : Type}

/-! ## Runs -/

def after (bus : Bus Mem) (op : Op) (ch : Nat) (s : State Mem) : Nat → State Mem
  | 0 => s
  | k + 1 => (transfer bus op ch k (after bus op ch s k)).2

def result (bus : Bus Mem) (op : Op) (ch : Nat) (s : State Mem) (k : Nat) : BitVec 32 :=
  (transfer bus op ch k (after bus op ch s k)).1

/-- A channel whose base address and count have just been written. -/
structure Fresh (ch : Nat) (s : State Mem) : Prop where
  ac : (s.dma ch).ac = (s.dma ch).ab
  cc : (s.dma ch).cc = (s.dma ch).cb.toNat
  within : (s.dma ch).ab &&& s.dma_mask = (s.dma ch).ab

/-- Call `k` is the transfer that its place in its pass says. -/
structure Exact (bus : Bus Mem) (op : Op) (ch : Nat) (s : State Mem) (k : Nat) : Prop where
  moved : (after bus op ch s (k + 1)).moved =
    (after bus op ch s k).moved ++ [addressAt (s.dma ch) (k % ((s.dma ch).cb.toNat + 1))]
  data : Data bus op k (s.dma ch) (addressAt (s.dma ch) (k % ((s.dma ch).cb.toNat + 1)))
    (after bus op ch s k).mem (after bus op ch s (k + 1)).mem (result bus op ch s k)
  goes_on : k % ((s.dma ch).cb.toNat + 1) ≠ (s.dma ch).cb.toNat →
    (after bus op ch s (k + 1)).dma_stat = (after bus op ch s k).dma_stat ∧
      (after bus op ch s (k + 1)).dma_m = (after bus op ch s k).dma_m ∧
      ((after bus op ch s (k + 1)).dma ch).ac =
        addressAt (s.dma ch) (k % ((s.dma ch).cb.toNat + 1) + 1)
  ends : k % ((s.dma ch).cb.toNat + 1) = (s.dma ch).cb.toNat →
    (after bus op ch s (k + 1)).dma_stat &&& bit ch ≠ 0 ∧
      if autoInit (s.dma ch) = true then
        (after bus op ch s (k + 1)).dma_m = (after bus op ch s k).dma_m ∧
          ((after bus op ch s (k + 1)).dma ch).ac = (s.dma ch).ab ∧
          ((after bus op ch s (k + 1)).dma ch).cc = (s.dma ch).cb.toNat
      else masked ch (after bus op ch s (k + 1)) = true
  told : result bus op ch s k &&& DMA_OVER ≠ 0 ↔
    k % ((s.dma ch).cb.toNat + 1) = (s.dma ch).cb.toNat

/-- A single pass is not run past its end. A read counts no transfer that `read_only` left, or
it is not noticed. A write does not meet a terminal count that leaves the mask clear, or one
transfer after another is the last of its pass while a request by software runs it masked. -/
def Noticed (op : Op) (ch n : Nat) (s : State Mem) : Prop :=
  (autoInit (s.dma ch) = false → n ≤ (s.dma ch).cb.toNat + 1) ∧
    match op with
    | .read => pending ch s = true → (s.dma ch).cb.toNat = 0 ∨ n < (s.dma ch).cb.toNat
    | .write _ =>
      if masked ch s = true then n = 0 ∨ (s.dma ch).cb.toNat = 0
      else autoInit (s.dma ch) = true → n ≤ (s.dma ch).cb.toNat

/-! ## Places in a pass -/

/-- The channel is at transfer `j` of its pass, with so many transfers counted too much. -/
structure Stands (c₀ : Dma_t) (ch j skew : Nat) (s : State Mem) : Prop where
  mode : (s.dma ch).mode = c₀.mode
  size : (s.dma ch).size = c₀.size
  ab : (s.dma ch).ab = c₀.ab
  cb : (s.dma ch).cb = c₀.cb
  ac : (s.dma ch).ac = addressAt c₀ j
  cc : (s.dma ch).cc = (c₀.cb.toNat : Int) - j - skew
  within : c₀.ab &&& s.dma_mask = c₀.ab

section

variable {bus : Bus Mem} {op : Op} {ch k j skew : Nat} {c₀ : Dma_t} {s s' : State Mem}
  {r : BitVec 32}

theorem stands_fresh (h : Fresh ch s) : Stands (s.dma ch) ch 0 0 s := by
  refine ⟨rfl, rfl, rfl, rfl, ?_, ?_, h.within⟩
  · rw [addressAt_zero]
    exact h.ac
  · rw [h.cc]
    simp

theorem Stands.next (h : Stands c₀ ch j skew s) :
    nextAddress s.dma_mask (s.dma ch) = addressAt c₀ (j + 1) := by
  have hbits : pageBits (s.dma ch) = pageBits c₀ := by unfold pageBits; rw [h.size]
  have hpage : (s.dma ch).ac.toNat / 2 ^ pageBits (s.dma ch) =
      c₀.ab.toNat / 2 ^ pageBits (s.dma ch) := by
    rw [h.ac, hbits]
    exact paged.page_wrapped (pageBits_le c₀) c₀.ab _
  rw [nextAddress_eq h.within hpage, hbits, h.ac, h.mode, h.size]
  unfold addressAt
  rw [paged.wrapped_wrapped (pageBits_le c₀), distance_succ]

theorem autoInit_of_stands (h : Stands c₀ ch j skew (before op ch s)) :
    autoInit (s.dma ch) = autoInit c₀ := by
  have hmode := (before_fixed op ch s).2.2.2.1
  unfold autoInit
  rw [← h.mode, hmode]

theorem cc_of_stands (h : Stands c₀ ch j skew s) :
    (s.dma ch).cc < 1 ↔ c₀.cb.toNat ≤ j + skew := by
  rw [h.cc]
  omega

theorem call_at (h : Stands c₀ ch j skew (before op ch s)) (hc : Call bus op ch k s s' r) :
    s'.moved = s.moved ++ [addressAt c₀ j] ∧
      Data bus op k c₀ (addressAt c₀ j) s.mem s'.mem r := by
  obtain ⟨-, -, -, hmode, hsize, -, -⟩ := before_fixed op ch s
  refine ⟨?_, ?_⟩
  · rw [hc.moved, h.ac]
  · have hdata := hc.data
    rw [h.ac] at hdata
    unfold Data at hdata ⊢
    rw [← h.mode, ← h.size, hmode, hsize]
    exact hdata

/-- The channel at its next place. -/
theorem stands_of_channel {j' skew' : Nat} {x : BitVec 32} {y : Int}
    (h : Stands c₀ ch j skew s) (hs' : s'.dma ch = { s.dma ch with ac := x, cc := y })
    (hx : x = addressAt c₀ j') (hy : y = (c₀.cb.toNat : Int) - j' - skew')
    (hmask : s'.dma_mask = s.dma_mask) : Stands c₀ ch j' skew' s' := by
  refine ⟨?_, ?_, ?_, ?_, ?_, ?_, ?_⟩
  · rw [hs']; exact h.mode
  · rw [hs']; exact h.size
  · rw [hs']; exact h.ab
  · rw [hs']; exact h.cb
  · rw [hs']; exact hx
  · rw [hs']; exact hy
  · rw [hmask]; exact h.within

theorem channel_of_call (h : Stands c₀ ch j skew (before op ch s)) (hc : Call bus op ch k s s' r) :
    s'.dma ch = counted { (before op ch s).dma ch with ac := addressAt c₀ (j + 1) } := by
  have hmask := (before_fixed op ch s).2.2.1
  rw [hc.channel, ← hmask, h.next]

theorem call_goes_on (h : Stands c₀ ch j skew (before op ch s)) (hc : Call bus op ch k s s' r)
    (hlt : j + skew < c₀.cb.toNat) :
    Stands c₀ ch (j + 1) skew s' ∧ s'.dma_m = (before op ch s).dma_m ∧
      s'.dma_stat = (before op ch s).dma_stat := by
  have hcc : ¬((before op ch s).dma ch).cc < 1 := by
    rw [cc_of_stands h]
    omega
  have hmask := (before_fixed op ch s).2.2.1
  have hchannel : s'.dma ch =
      { (before op ch s).dma ch with
        ac := addressAt c₀ (j + 1)
        cc := ((before op ch s).dma ch).cc - 1 } :=
    (channel_of_call h hc).trans (if_neg (fun hcount => hcc hcount.1))
  refine ⟨stands_of_channel h hchannel rfl ?_ (hc.dma_mask.trans hmask.symm), ?_, ?_⟩
  · rw [h.cc]
    omega
  · rw [hc.mask, if_neg (fun hm => hcc hm.1)]
  · rw [hc.stat, if_neg hcc]

/-- The terminal count. -/
theorem call_ends (h : Stands c₀ ch j skew (before op ch s)) (hc : Call bus op ch k s s' r)
    (hge : c₀.cb.toNat ≤ j + skew) :
    s'.dma_stat &&& bit ch ≠ 0 ∧
      (autoInit c₀ = true → Stands c₀ ch 0 0 s' ∧ s'.dma_m = (before op ch s).dma_m) ∧
      (autoInit c₀ = false → Stands c₀ ch (j + 1) skew s' ∧ masked ch s' = true) := by
  have hcc : ((before op ch s).dma ch).cc < 1 := (cc_of_stands h).mpr hge
  have hmask := (before_fixed op ch s).2.2.1
  have hauto := autoInit_of_stands h
  have hauto' : autoInit ((before op ch s).dma ch) = autoInit c₀ := by
    unfold autoInit
    rw [h.mode]
  have hchannel := channel_of_call h hc
  refine ⟨?_, fun ha => ⟨?_, ?_⟩, fun ha => ⟨?_, ?_⟩⟩
  · rw [hc.stat, if_pos hcc]
    exact mask_set _ hc.bit_ne
  · have hreload : s'.dma ch =
        { (before op ch s).dma ch with
          ac := ((before op ch s).dma ch).ab
          cc := ((before op ch s).dma ch).cb.toNat } :=
      hchannel.trans (if_pos ⟨hcc, hauto'.trans ha⟩)
    refine stands_of_channel h hreload ?_ ?_ (hc.dma_mask.trans hmask.symm)
    · rw [addressAt_zero]
      exact h.ab
    · rw [h.cb]
      simp
  · rw [hc.mask, if_neg (by rw [hauto, ha]; simp)]
  · have hrest : s'.dma ch =
        { (before op ch s).dma ch with
          ac := addressAt c₀ (j + 1)
          cc := ((before op ch s).dma ch).cc - 1 } := by
      refine hchannel.trans (if_neg (fun hcount => ?_))
      have htrue : autoInit ((before op ch s).dma ch) = true := hcount.2
      rw [hauto', ha] at htrue
      cases htrue
    refine stands_of_channel h hrest rfl ?_ (hc.dma_mask.trans hmask.symm)
    rw [h.cc]
    omega
  · unfold masked
    rw [hc.mask, if_pos ⟨hcc, hauto.trans ha⟩]
    exact decide_eq_true (mask_set _ hc.bit_ne)

theorem before_of_call (hc : Call bus op ch k s s' r) : before op ch s' = s' := by
  cases op with
  | read => exact if_neg (by rw [hc.pending]; decide)
  | write val => rfl

end

/-! ## Exact calls -/

section

variable {bus : Bus Mem} {op : Op} {ch k skew : Nat} {s : State Mem}

theorem exact_goes_on
    (hok : result bus op ch s k ≠ DMA_NODATA)
    (h : Stands (s.dma ch) ch (k % ((s.dma ch).cb.toNat + 1)) skew
      (before op ch (after bus op ch s k)))
    (hlt : k % ((s.dma ch).cb.toNat + 1) + skew < (s.dma ch).cb.toNat)
    (hm : (before op ch (after bus op ch s k)).dma_m = (after bus op ch s k).dma_m)
    (hstat : (before op ch (after bus op ch s k)).dma_stat = (after bus op ch s k).dma_stat)
    (htells : ¬Tells op ch ((before op ch (after bus op ch s k)).dma ch)
      (after bus op ch s (k + 1))) : Exact bus op ch s k := by
  have hc := call_of_transfer bus op k hok
  obtain ⟨hmoved, hdata⟩ := call_at h hc
  obtain ⟨hnext, hm', hstat'⟩ := call_goes_on h hc hlt
  exact ⟨hmoved, hdata, fun _ => ⟨hstat'.trans hstat, hm'.trans hm, hnext.ac⟩,
    fun hlast => absurd hlast (by omega), iff_of_false (fun ho => htells (hc.told.mp ho))
      (by omega)⟩

theorem exact_ends
    (hok : result bus op ch s k ≠ DMA_NODATA)
    (h : Stands (s.dma ch) ch (k % ((s.dma ch).cb.toNat + 1)) skew
      (before op ch (after bus op ch s k)))
    (hlast : k % ((s.dma ch).cb.toNat + 1) = (s.dma ch).cb.toNat)
    (hm : autoInit (s.dma ch) = true →
      (before op ch (after bus op ch s k)).dma_m = (after bus op ch s k).dma_m)
    (htells : Tells op ch ((before op ch (after bus op ch s k)).dma ch)
      (after bus op ch s (k + 1))) : Exact bus op ch s k := by
  have hc := call_of_transfer bus op k hok
  obtain ⟨hmoved, hdata⟩ := call_at h hc
  obtain ⟨hstat, hauto, hsingle⟩ := call_ends h hc (by omega)
  refine ⟨hmoved, hdata, fun hne => absurd hlast hne, fun _ => ⟨hstat, ?_⟩,
    iff_of_true (hc.told.mpr htells) hlast⟩
  split_ifs with ha
  · obtain ⟨hnext, hm'⟩ := hauto ha
    refine ⟨hm'.trans (hm ha), ?_, ?_⟩
    · exact hnext.ac.trans (addressAt_zero _)
    · have hcc := hnext.cc
      simp only [Int.natCast_zero, Int.sub_zero] at hcc
      exact hcc
  · exact (hsingle (by simpa using ha)).2

/-- The channel stands where call `k` should find it. -/
structure Regular (op : Op) (ch : Nat) (s₀ : State Mem) (k : Nat) (s : State Mem) : Prop where
  stands : Stands (s₀.dma ch) ch (k % ((s₀.dma ch).cb.toNat + 1)) 0 s
  before : before op ch s = s
  mask : s.dma_m = s₀.dma_m

/-- When the result of a regular call is right. -/
def OverOk (op : Op) (ch : Nat) (s : State Mem) (j : Nat) : Prop :=
  match op with
  | .read => True
  | .write _ =>
    (j ≠ (s.dma ch).cb.toNat → masked ch s = false) ∧
      (j = (s.dma ch).cb.toNat → autoInit (s.dma ch) = true → masked ch s = true)

theorem exact_iff_tells (hok : result bus op ch s k ≠ DMA_NODATA)
    (h : Regular op ch s k (after bus op ch s k)) :
    Exact bus op ch s k ↔
      (Tells op ch ((after bus op ch s k).dma ch) (after bus op ch s (k + 1)) ↔
        k % ((s.dma ch).cb.toNat + 1) = (s.dma ch).cb.toNat) := by
  have hc := call_of_transfer bus op k hok
  have hover := hc.told
  have hplace : k % ((s.dma ch).cb.toNat + 1) < (s.dma ch).cb.toNat + 1 :=
    Nat.mod_lt _ (Nat.succ_pos _)
  have hbefore := h.before
  have hstands := h.stands
  rw [← hbefore] at hstands
  rw [hbefore] at hover
  constructor
  · intro hexact
    exact hover.symm.trans hexact.told
  · intro htells
    by_cases hlast : k % ((s.dma ch).cb.toNat + 1) = (s.dma ch).cb.toNat
    · refine exact_ends hok hstands hlast (fun _ => by rw [hbefore]) ?_
      rw [hbefore]
      exact htells.mpr hlast
    · refine exact_goes_on hok hstands (by omega) (by rw [hbefore]) (by rw [hbefore]) ?_
      rw [hbefore]
      exact fun ht => hlast (htells.mp ht)

/-- The mask after a regular call. -/
theorem masked_of_regular (hok : result bus op ch s k ≠ DMA_NODATA)
    (h : Regular op ch s k (after bus op ch s k)) :
    masked ch (after bus op ch s (k + 1)) =
      if k % ((s.dma ch).cb.toNat + 1) = (s.dma ch).cb.toNat ∧ autoInit (s.dma ch) = false then
        true
      else masked ch s := by
  have hc := call_of_transfer bus op k hok
  have hplace : k % ((s.dma ch).cb.toNat + 1) < (s.dma ch).cb.toNat + 1 :=
    Nat.mod_lt _ (Nat.succ_pos _)
  have hbefore := h.before
  have hstands := h.stands
  rw [← hbefore] at hstands
  have hsame : ∀ t : State Mem, t.dma_m = (before op ch (after bus op ch s k)).dma_m →
      masked ch t = masked ch s := by
    intro t ht
    unfold masked
    rw [ht, hbefore, h.mask]
  by_cases hlast : k % ((s.dma ch).cb.toNat + 1) = (s.dma ch).cb.toNat
  · obtain ⟨-, hauto, hsingle⟩ := call_ends hstands hc (by omega)
    cases ha : autoInit (s.dma ch) with
    | true =>
      rw [if_neg (by simp)]
      exact hsame _ (hauto ha).2
    | false =>
      rw [if_pos ⟨hlast, rfl⟩]
      exact (hsingle ha).2
  · obtain ⟨-, hm, -⟩ := call_goes_on hstands hc (by omega)
    rw [if_neg (fun hcond => hlast hcond.1)]
    exact hsame _ hm

theorem exact_iff_of_regular (hok : result bus op ch s k ≠ DMA_NODATA)
    (h : Regular op ch s k (after bus op ch s k)) :
    Exact bus op ch s k ↔ OverOk op ch s (k % ((s.dma ch).cb.toNat + 1)) := by
  have hplace : k % ((s.dma ch).cb.toNat + 1) < (s.dma ch).cb.toNat + 1 :=
    Nat.mod_lt _ (Nat.succ_pos _)
  rw [exact_iff_tells hok h]
  cases op with
  | read =>
    have hcc := cc_of_stands h.stands
    refine iff_of_true ?_ trivial
    unfold Tells
    rw [hcc]
    omega
  | write val =>
    have hm := masked_of_regular hok h
    unfold Tells OverOk
    rw [hm]
    by_cases hlast : k % ((s.dma ch).cb.toNat + 1) = (s.dma ch).cb.toNat
    · cases ha : autoInit (s.dma ch) <;> simp [hlast]
    · simp [hlast]

/-! ## The runs -/

theorem regular_next (hok : result bus op ch s k ≠ DMA_NODATA)
    (h : Regular op ch s k (after bus op ch s k))
    (hpass : autoInit (s.dma ch) = true ∨
      k % ((s.dma ch).cb.toNat + 1) ≠ (s.dma ch).cb.toNat) :
    Regular op ch s (k + 1) (after bus op ch s (k + 1)) := by
  have hc := call_of_transfer bus op k hok
  have hplace : k % ((s.dma ch).cb.toNat + 1) < (s.dma ch).cb.toNat + 1 :=
    Nat.mod_lt _ (Nat.succ_pos _)
  have hbefore := h.before
  have hstands := h.stands
  have hmod : (k + 1) % ((s.dma ch).cb.toNat + 1) =
      (k % ((s.dma ch).cb.toNat + 1) + 1) % ((s.dma ch).cb.toNat + 1) := by rw [Nat.mod_add_mod]
  rw [← hbefore] at hstands
  by_cases hlast : k % ((s.dma ch).cb.toNat + 1) = (s.dma ch).cb.toNat
  · have ha : autoInit (s.dma ch) = true := by
      rcases hpass with ha | hne
      · exact ha
      · exact absurd hlast hne
    obtain ⟨hnext, hm⟩ := (call_ends hstands hc (by omega)).2.1 ha
    rw [hlast, Nat.mod_self] at hmod
    refine ⟨?_, before_of_call hc, ?_⟩
    · rw [hmod]
      exact hnext
    · rw [hbefore] at hm
      exact hm.trans h.mask
  · obtain ⟨hnext, hm, -⟩ := call_goes_on hstands hc (by omega)
    rw [Nat.mod_eq_of_lt (by omega : k % ((s.dma ch).cb.toNat + 1) + 1 < _)] at hmod
    refine ⟨?_, before_of_call hc, ?_⟩
    · rw [hmod]
      exact hnext
    · rw [hbefore] at hm
      exact hm.trans h.mask

/-- From a regular call on all are regular, up to the end of a single pass. -/
theorem regular_run {n k₀ : Nat} (hok : ∀ k < n, result bus op ch s k ≠ DMA_NODATA)
    (h : Regular op ch s k₀ (after bus op ch s k₀)) : ∀ k, k₀ ≤ k → k ≤ n →
      (autoInit (s.dma ch) = true ∨ k ≤ (s.dma ch).cb.toNat) →
      Regular op ch s k (after bus op ch s k) := by
  intro k hle
  induction k, hle using Nat.le_induction with
  | base => intro _ _; exact h
  | succ k hle ih =>
    intro hn hpass
    have hk := ih (by omega) (hpass.imp_right (by omega))
    refine regular_next (hok k (by omega)) hk (hpass.imp_right fun hlt => ?_)
    rw [Nat.mod_eq_of_lt (by omega)]
    omega

/-- A single pass that is run past its end. -/
theorem not_exact_past (hk : k = (s.dma ch).cb.toNat + 1)
    (hok : result bus op ch s k ≠ DMA_NODATA) (ha : autoInit (s.dma ch) = false)
    (h : Stands (s.dma ch) ch k skew (after bus op ch s k))
    (hbefore : before op ch (after bus op ch s k) = after bus op ch s k) :
    ¬Exact bus op ch s k := by
  intro hexact
  have hc := call_of_transfer bus op _ hok
  have hcc := cc_of_stands h
  have hplace : k % ((s.dma ch).cb.toNat + 1) = 0 := by rw [hk, Nat.mod_self]
  rw [← hbefore] at h
  obtain ⟨hmoved, -⟩ := call_at h hc
  obtain ⟨-, -, hsingle⟩ := call_ends h hc (by omega)
  have htells := hc.told.symm.trans hexact.told
  have hplaced := hexact.moved
  rw [hplace] at htells hplaced
  have haddress : addressAt (s.dma ch) k = addressAt (s.dma ch) 0 := by
    have hlists := hmoved.symm.trans hplaced
    simpa using hlists
  by_cases h0 : (s.dma ch).cb.toNat = 0
  · rw [hk, h0] at haddress
    exact addressAt_one_ne _ haddress
  · refine h0 (htells.mp ?_).symm
    rw [hbefore]
    cases op with
    | read => exact hcc.mpr (by omega)
    | write val => exact (hsingle ha).2

/-! ## A read with a transfer still to be counted -/

/-- The count of the transfer that is left. -/
theorem before_pending (hp : pending ch s = true) :
    before .read ch s =
      { onChannel ch counted s with
        dma_m :=
          if (s.dma ch).cc < 1 ∧ autoInit (s.dma ch) = false then s.dma_m ||| bit ch else s.dma_m
        dma_stat := if (s.dma ch).cc < 1 then s.dma_stat ||| bit ch else s.dma_stat
        dma_stat_adv_pend := s.dma_stat_adv_pend &&& ~~~bit ch } := by
  unfold before dma_channel_advance_legacy
  simp only [if_pos hp, countTransfer_eq]
  rfl

theorem stands_pending (h : Fresh ch s) (hp : pending ch s = true) :
    Stands (s.dma ch) ch 0
        (if (s.dma ch).cb.toNat = 0 ∧ autoInit (s.dma ch) = true then 0 else 1)
        (before .read ch s) ∧
      ((s.dma ch).cb.toNat ≠ 0 ∨ autoInit (s.dma ch) = true →
        (before .read ch s).dma_m = s.dma_m) ∧
      ((s.dma ch).cb.toNat ≠ 0 → (before .read ch s).dma_stat = s.dma_stat) := by
  have hstands := stands_fresh h
  have hcc := cc_of_stands hstands
  rw [before_pending hp]
  have hchannel : (onChannel ch counted s).dma ch = counted (s.dma ch) := dma_onChannel counted
  refine ⟨?_, fun hm => if_neg ?_, fun h0 => if_neg ?_⟩
  · by_cases hlast : (s.dma ch).cb.toNat = 0 ∧ autoInit (s.dma ch) = true
    · have hreload : (onChannel ch counted s).dma ch =
          { s.dma ch with ac := (s.dma ch).ab, cc := (s.dma ch).cb.toNat } :=
        hchannel.trans (if_pos ⟨hcc.mpr (by omega), hlast.2⟩)
      rw [if_pos hlast]
      exact stands_of_channel hstands hreload (addressAt_zero _).symm (by simp) rfl
    · have hcount : (onChannel ch counted s).dma ch =
          { s.dma ch with ac := (s.dma ch).ac, cc := (s.dma ch).cc - 1 } := by
        refine hchannel.trans (if_neg fun hc => hlast ⟨?_, hc.2⟩)
        have := hcc.mp hc.1
        omega
      rw [if_neg hlast]
      refine stands_of_channel hstands hcount hstands.ac ?_ rfl
      rw [h.cc]
      simp
  · rintro ⟨hlt, ha⟩
    have h0 := hcc.mp hlt
    rcases hm with hm | hm
    · omega
    · rw [ha] at hm
      cases hm
  · intro hlt
    have := hcc.mp hlt
    omega

/-- Before call `k` of the first pass, one transfer too much is counted. -/
structure Skewed (ch k : Nat) (s₀ s : State Mem) : Prop where
  stands : Stands (s₀.dma ch) ch k 1 (before .read ch s)
  mask : (before .read ch s).dma_m = s.dma_m
  stat : (before .read ch s).dma_stat = s.dma_stat

theorem skewed_run {n : Nat} (hok : ∀ k < n, result bus .read ch s k ≠ DMA_NODATA)
    (h : Fresh ch s) (hp : pending ch s = true) : ∀ k, k < (s.dma ch).cb.toNat → k ≤ n →
      Skewed ch k s (after bus .read ch s k) := by
  intro k
  induction k with
  | zero =>
    intro h0 _
    obtain ⟨hstands, hm, hstat⟩ := stands_pending h hp
    rw [if_neg (by omega)] at hstands
    exact ⟨hstands, hm (.inl (by omega)), hstat (by omega)⟩
  | succ k ih =>
    intro hk hn
    have hskewed := ih (by omega) (by omega)
    have hc := call_of_transfer bus .read k (hok k (by omega))
    have hbefore := before_of_call hc
    obtain ⟨hnext, -, -⟩ := call_goes_on hskewed.stands hc (by omega)
    refine ⟨?_, congrArg State.dma_m hbefore, congrArg State.dma_stat hbefore⟩
    rw [← hbefore] at hnext
    exact hnext

/-- Such a run is right as long as it stays away from the end of the pass. -/
theorem exact_skewed_iff {n : Nat} (hok : ∀ k < n, result bus .read ch s k ≠ DMA_NODATA)
    (h : Fresh ch s) (hp : pending ch s = true) (h0 : (s.dma ch).cb.toNat ≠ 0) :
    (∀ k < n, Exact bus .read ch s k) ↔ n < (s.dma ch).cb.toNat := by
  constructor
  · intro hall
    by_contra hn
    have hlast : (s.dma ch).cb.toNat - 1 < n := by omega
    have hskewed := skewed_run hok h hp ((s.dma ch).cb.toNat - 1) (by omega) (by omega)
    have hc := call_of_transfer bus .read _ (hok _ hlast)
    have htells := (hc.told.symm.trans (hall _ hlast).told).mp
      ((cc_of_stands hskewed.stands).mpr (by omega))
    rw [Nat.mod_eq_of_lt (by omega)] at htells
    omega
  · intro hn k hk
    have hskewed := skewed_run hok h hp k (by omega) (by omega)
    have hplace : k % ((s.dma ch).cb.toNat + 1) = k := Nat.mod_eq_of_lt (by omega)
    have hstands : Stands (s.dma ch) ch (k % ((s.dma ch).cb.toNat + 1)) 1
        (before .read ch (after bus .read ch s k)) := by
      rw [hplace]
      exact hskewed.stands
    refine exact_goes_on (hok k hk) hstands (by omega) hskewed.mask hskewed.stat ?_
    intro htells
    have := (cc_of_stands hskewed.stands).mp htells
    omega

/-- A count of 0 is too short for it to show. -/
theorem exact_pending_iff {n : Nat} (hok : ∀ k < n, result bus .read ch s k ≠ DMA_NODATA)
    (h : Fresh ch s) (hp : pending ch s = true) (h0 : (s.dma ch).cb.toNat = 0) :
    (∀ k < n, Exact bus .read ch s k) ↔ (autoInit (s.dma ch) = false → n ≤ 1) := by
  obtain ⟨hstands, hm, -⟩ := stands_pending h hp
  have hplace : 0 % ((s.dma ch).cb.toNat + 1) = (s.dma ch).cb.toNat := by rw [h0]
  have hfirst : ∀ skew, Stands (s.dma ch) ch 0 skew (before .read ch s) → 0 < n →
      Exact bus .read ch s 0 := by
    intro skew hs hn
    have hstands : Stands (s.dma ch) ch (0 % ((s.dma ch).cb.toNat + 1)) skew
        (before .read ch (after bus .read ch s 0)) := by
      rw [Nat.zero_mod]
      exact hs
    exact exact_ends (hok 0 hn) hstands hplace (fun ha => hm (.inr ha))
      ((cc_of_stands hs).mpr (by omega))
  cases ha : autoInit (s.dma ch) with
  | true =>
    rw [if_pos ⟨h0, ha⟩] at hstands
    refine iff_of_true (fun k hk => ?_) nofun
    have hzero := hfirst 0 hstands (by omega)
    rcases Nat.eq_zero_or_pos k with hk0 | hpos
    · rw [hk0]
      exact hzero
    · have hc := call_of_transfer bus .read 0 (hok 0 (by omega))
      obtain ⟨hnext, hm'⟩ := (call_ends hstands hc (by omega)).2.1 ha
      have hone : Regular .read ch s 1 (after bus .read ch s 1) := by
        refine ⟨?_, before_of_call hc, hm'.trans (hm (.inr ha))⟩
        rw [h0]
        exact hnext
      exact (exact_iff_of_regular (hok k hk)
        (regular_run hok hone k hpos (by omega) (.inl ha))).mpr trivial
  | false =>
    rw [if_neg (by rw [ha]; simp)] at hstands
    constructor
    · intro hall _
      by_contra hn
      have hc := call_of_transfer bus .read 0 (hok 0 (by omega))
      obtain ⟨hnext, -⟩ := (call_ends hstands hc (by omega)).2.2 ha
      exact not_exact_past (by omega) (hok 1 (by omega)) ha hnext (before_of_call hc)
        (hall 1 (by omega))
    · intro hn k hk
      have hk0 : k = 0 := by
        have := hn rfl
        omega
      rw [hk0]
      exact hfirst 1 hstands (by omega)

theorem regular_zero (h : Fresh ch s) (hstart : op = .read → pending ch s = false) :
    Regular op ch s 0 (after bus op ch s 0) := by
  refine ⟨?_, ?_, rfl⟩
  · rw [Nat.zero_mod]
    exact stands_fresh h
  · cases op with
    | read =>
      have hclear : pending ch (after bus .read ch s 0) = false := hstart rfl
      exact if_neg (by rw [hclear]; decide)
    | write val => rfl

/-- Nothing to be counted before the first call. -/
theorem exact_regular_iff {n : Nat} (hok : ∀ k < n, result bus op ch s k ≠ DMA_NODATA)
    (h : Fresh ch s) (hstart : op = .read → pending ch s = false) :
    (∀ k < n, Exact bus op ch s k) ↔
      (autoInit (s.dma ch) = false → n ≤ (s.dma ch).cb.toNat + 1) ∧
        ∀ k < n, OverOk op ch s (k % ((s.dma ch).cb.toNat + 1)) := by
  have hrun := regular_run hok (regular_zero h hstart)
  constructor
  · intro hall
    have hpass : autoInit (s.dma ch) = false → n ≤ (s.dma ch).cb.toNat + 1 := by
      intro ha
      by_contra hn
      have hlast := hrun (s.dma ch).cb.toNat (by omega) (by omega) (.inr (Nat.le_refl _))
      have hc := call_of_transfer bus op _ (hok (s.dma ch).cb.toNat (by omega))
      have hplace : (s.dma ch).cb.toNat % ((s.dma ch).cb.toNat + 1) = (s.dma ch).cb.toNat :=
        Nat.mod_eq_of_lt (by omega)
      have hstands := hlast.stands
      rw [hplace, ← hlast.before] at hstands
      obtain ⟨hnext, -⟩ := (call_ends hstands hc (by omega)).2.2 ha
      exact not_exact_past rfl (hok _ (by omega)) ha hnext (before_of_call hc)
        (hall _ (by omega))
    refine ⟨hpass, fun k hk => ?_⟩
    refine (exact_iff_of_regular (hok k hk) (hrun k (by omega) (by omega) ?_)).mp (hall k hk)
    cases ha : autoInit (s.dma ch) with
    | true => exact .inl rfl
    | false =>
      have := hpass ha
      exact .inr (by omega)
  · rintro ⟨hpass, hover⟩ k hk
    refine (exact_iff_of_regular (hok k hk) (hrun k (by omega) (by omega) ?_)).mpr (hover k hk)
    cases ha : autoInit (s.dma ch) with
    | true => exact .inl rfl
    | false =>
      have := hpass ha
      exact .inr (by omega)

/-- The results of regular writes. -/
theorem overOk_write_iff (val : Nat → BitVec 16) (n : Nat) :
    (∀ k < n, OverOk (.write val) ch s (k % ((s.dma ch).cb.toNat + 1))) ↔
      if masked ch s = true then n = 0 ∨ (s.dma ch).cb.toNat = 0
      else autoInit (s.dma ch) = true → n ≤ (s.dma ch).cb.toNat := by
  unfold OverOk
  cases hm : masked ch s with
  | true =>
    rw [if_pos rfl]
    constructor
    · intro hall
      by_contra hno
      have hfirst := (hall 0 (by omega)).1
      rw [Nat.zero_mod] at hfirst
      have hne : 0 ≠ (s.dma ch).cb.toNat := by omega
      exact absurd (hfirst hne) (by decide)
    · rintro (hn | h0) k hk
      · omega
      · rw [h0, Nat.zero_add, Nat.mod_one]
        exact ⟨fun hne => absurd rfl hne, fun _ _ => rfl⟩
  | false =>
    rw [if_neg (by decide)]
    constructor
    · intro hall ha
      by_contra hn
      have hlast := (hall (s.dma ch).cb.toNat (by omega)).2
      rw [Nat.mod_eq_of_lt (by omega)] at hlast
      exact absurd (hlast rfl ha) (by decide)
    · intro hle k hk
      refine ⟨fun _ => rfl, fun hlast ha => ?_⟩
      have := hle ha
      rw [Nat.mod_eq_of_lt (by omega)] at hlast
      omega

end

/-! ## Programming -/

/-- The ports program an 8-bit channel: its mode, its address and its count. -/
def program (channel : Nat) (mode addressLow addressHigh countLow countHigh : BitVec 8)
    (s : State Mem) : State Mem :=
  countWrite channel countHigh (countWrite channel countLow
    (addressWrite channel addressHigh (addressWrite channel addressLow
      (clearFlipFlop (modeWrite mode s)))))

/-- The bytes of an address that a mask keeps. -/
theorem within_bytes {base mask : BitVec 32} (hmask : mask &&& 0xffff = 0xffff)
    (low high : BitVec 8) :
    let ab := ((base &&& 0xffffff00#32 &&& mask ||| low.setWidth 32) &&& 0xffff00ff#32 &&& mask) |||
      high.setWidth 32 <<< 8
    ab &&& mask = ab := by
  intro ab
  have hlow : ∀ i < 16, mask.getLsbD i = true := by
    intro i hi
    have hbit := congrArg (fun x => x.getLsbD i) hmask
    simp only [BitVec.getLsbD_and] at hbit
    have hffff : (0xffff : BitVec 32).getLsbD i = true := by
      have hall : ∀ j < 16, (0xffff : BitVec 32).getLsbD j = true := by decide
      exact hall i hi
    rw [hffff, Bool.and_true] at hbit
    exact hbit
  apply BitVec.eq_of_getLsbD_eq
  intro i hi
  cases hm : mask.getLsbD i with
  | true => rw [BitVec.getLsbD_and, hm, Bool.and_true]
  | false =>
    have hge : 16 ≤ i := by
      by_contra hlt
      rw [hlow i (by omega)] at hm
      cases hm
    have hhigh : high.getLsbD (i - 8) = false := BitVec.getLsbD_of_ge _ _ (by omega)
    simp [ab, BitVec.getLsbD_and, BitVec.getLsbD_or, hm, hhigh]

theorem dma_program {channel : Nat} {mode : BitVec 8} {s : State Mem}
    (hmode : (mode &&& 3).toNat = channel)
    (addressLow addressHigh countLow countHigh : BitVec 8) :
    (program channel mode addressLow addressHigh countLow countHigh s).dma channel =
      let c := s.dma channel
      let ab := ((c.ab &&& 0xffffff00#32 &&& s.dma_mask ||| addressLow.setWidth 32) &&&
        0xffff00ff#32 &&& s.dma_mask) ||| addressHigh.setWidth 32 <<< 8
      let cb := (c.cb &&& 0xff00#16 ||| countLow.setWidth 16) &&& 0x00ff#16 |||
        countHigh.setWidth 16 <<< 8
      { c with mode := mode, ab := ab, ac := ab, cb := cb, cc := cb.toNat } := by
  unfold program countWrite addressWrite clearFlipFlop modeWrite onChannel
  simp only [hmode, Function.update_self, Bool.not_false, Bool.not_true, if_true,
    Bool.false_eq_true, if_false]

/-- The ports leave a fresh channel. -/
theorem fresh_program {channel : Nat} {mode : BitVec 8} {s : State Mem}
    (hmode : (mode &&& 3).toNat = channel) (hmask : s.dma_mask &&& 0xffff = 0xffff)
    (addressLow addressHigh countLow countHigh : BitVec 8) :
    Fresh channel (program channel mode addressLow addressHigh countLow countHigh s) := by
  have heq := dma_program (s := s) hmode addressLow addressHigh countLow countHigh
  refine ⟨?_, ?_, ?_⟩
  · rw [heq]
  · rw [heq]
  · rw [heq]
    exact within_bytes hmask addressLow addressHigh

/-! ## The law -/

/-- In a run of calls that are all served, after a base address and a count: each of them is
exact just when every terminal count is noticed. -/
theorem calls_are_exact_while_the_end_is_noticed (bus : Bus Mem) (op : Op) (ch n : Nat)
    (s : State Mem) (h : Fresh ch s) (hok : ∀ k < n, result bus op ch s k ≠ DMA_NODATA) :
    (∀ k < n, Exact bus op ch s k) ↔ Noticed op ch n s := by
  unfold Noticed
  cases op with
  | write val =>
    rw [exact_regular_iff hok h nofun, overOk_write_iff]
  | read =>
    cases hp : pending ch s with
    | false =>
      rw [exact_regular_iff hok h (fun _ => hp)]
      exact and_congr_right fun _ => iff_of_true (fun _ _ => trivial) nofun
    | true =>
      by_cases h0 : (s.dma ch).cb.toNat = 0
      · rw [exact_pending_iff hok h hp h0, h0]
        exact ⟨fun hn => ⟨hn, fun _ => .inl rfl⟩, fun hn => hn.1⟩
      · rw [exact_skewed_iff hok h hp h0]
        constructor
        · intro hlt
          exact ⟨fun _ => by omega, fun _ => .inr hlt⟩
        · rintro ⟨-, hlt⟩
          exact (hlt rfl).resolve_left h0

/-- A memory that is all zero. -/
def zeros : Bus Unit where
  mem_readb_phys := fun _ mem => (0, mem)
  mem_writeb_phys := fun _ _ mem => mem

/-- Channel 1, for one unit of each pass of so many units less one. -/
def channel_1 (mode countLow : BitVec 8) : State Unit :=
  program 1 mode 0 0 countLow 0 (dma_reset ())

theorem fresh_channel_1 {mode : BitVec 8} (hmode : (mode &&& 3).toNat = 1)
    (countLow : BitVec 8) : Fresh 1 (channel_1 mode countLow) :=
  fresh_program hmode (by decide) 0 0 countLow 0

/-- Two reads of a single pass of two units. -/
theorem two_reads_are_exact :
    Exact zeros .read 1 (channel_1 0x49 1) 0 ∧ Exact zeros .read 1 (channel_1 0x49 1) 1 := by
  have hall := (calls_are_exact_while_the_end_is_noticed zeros .read 1 2 (channel_1 0x49 1)
    (fresh_channel_1 (by decide) 1) (by decide)).mpr ⟨by decide, fun hp => absurd hp (by decide)⟩
  exact ⟨hall 0 (by decide), hall 1 (by decide)⟩

/-- A write that reaches the terminal count of an auto-init channel does not tell of it. -/
theorem an_auto_init_write_does_not_tell :
    Fresh 1 (channel_1 0x55 0) ∧
      result zeros (.write fun _ => 0) 1 (channel_1 0x55 0) 0 ≠ DMA_NODATA ∧
      ¬Exact zeros (.write fun _ => 0) 1 (channel_1 0x55 0) 0 := by
  refine ⟨fresh_channel_1 (by decide) 0, by decide, fun h => ?_⟩
  exact absurd (h.told.mpr (by decide)) (by decide)

end blumach.dma
