-- Runs of transfers on one channel: which address each of them has, where the terminal count
-- is, and when the results of the calls tell of it.
import BluMach.Dma
import BluMach.Paged

namespace blumach.dma

open paged

variable {Mem : Type}

/-! ## Addresses -/

def autoInit (c : Dma_t) : Bool := c.mode &&& 0x10 ≠ 0

/-- The low bits of an address that come round. -/
def pageBits (c : Dma_t) : Nat := if c.size = true then 17 else 16

/-- How far `j` transfers go, down or up. -/
def distance (c : Dma_t) (j : Nat) : Int :=
  (if c.mode &&& 0x20 ≠ 0 then -1 else 1) * (if c.size = true then 2 else 1) * j

/-- The address of transfer `j` of a pass. -/
def addressAt (c : Dma_t) (j : Nat) : BitVec 32 := wrapped (pageBits c) c.ab (distance c j)

theorem pageBits_le (c : Dma_t) : pageBits c ≤ 32 := by
  unfold pageBits
  split_ifs <;> omega

theorem addressAt_zero (c : Dma_t) : addressAt c 0 = c.ab := by
  unfold addressAt distance
  rw [Int.natCast_zero, Int.mul_zero, wrapped_zero]

theorem distance_succ (c : Dma_t) (j : Nat) :
    distance c (j + 1) =
      distance c j +
        (if c.mode &&& 0x20 ≠ 0 then -1 else 1) * (if c.size = true then 2 else 1) := by
  unfold distance
  rw [Int.natCast_succ, Int.mul_add, Int.mul_one]

theorem addressAt_one_ne (c : Dma_t) : addressAt c 1 ≠ addressAt c 0 := by
  intro h
  have hmod := wrapped_inj (pageBits_le c) c.ab h
  unfold Int.ModEq distance pageBits at hmod
  split_ifs at hmod <;> simp at hmod

theorem add_modEq (n : Nat) (hn : n ≤ 32) (x : BitVec 32) (y : BitVec 32) :
    ((x + y).toNat : Int) ≡ x.toNat + y.toNat [ZMOD (2 ^ n : Nat)] := by
  rw [BitVec.toNat_add]
  have hdvd : 2 ^ n ∣ 2 ^ 32 := Nat.pow_dvd_pow 2 hn
  have hmod := (Nat.mod_modEq (x.toNat + y.toNat) (2 ^ 32)).of_dvd hdvd
  have hint := (Int.natCast_modEq_iff).mpr hmod
  rw [← Int.natCast_add]
  exact hint

theorem sub_modEq (n : Nat) (hn : n ≤ 32) (x : BitVec 32) (y : BitVec 32) :
    ((x - y).toNat : Int) ≡ x.toNat + -(y.toNat : Int) [ZMOD (2 ^ n : Nat)] := by
  have hback := add_modEq n hn (x - y) y
  rw [BitVec.sub_add_cancel] at hback
  have hsub := hback.symm.sub_right (y.toNat : Int)
  rw [Int.add_sub_cancel] at hsub
  exact hsub

/-- One step of the address, in bytes or words, up or down. -/
theorem nextAddress_eq {c : Dma_t} {mask base : BitVec 32} (hbase : base &&& mask = base)
    (hpage : c.ac.toNat / 2 ^ pageBits c = base.toNat / 2 ^ pageBits c) :
    nextAddress mask c =
      wrapped (pageBits c) c.ac
        ((if c.mode &&& 0x20 ≠ 0 then -1 else 1) * (if c.size = true then 2 else 1)) := by
  unfold nextAddress
  cases hs : c.size with
  | false =>
    have hbits : pageBits c = 16 := by unfold pageBits; rw [hs]; rfl
    rw [hbits] at hpage ⊢
    have hkeep : c.ac &&& 0xffff0000#32 &&& mask = c.ac &&& 0xffff0000#32 :=
      and_mask_of_page (by decide) (by decide) hbase hpage
    rw [hkeep]
    by_cases hd : c.mode &&& 0x20 ≠ 0
    · simp only [Bool.not_false, if_true, if_pos hd]
      exact splice_eq_wrapped (by decide) (by decide) (by decide) (sub_modEq 16 (by decide) c.ac 1)
    · simp only [Bool.not_false, if_true, if_neg hd]
      exact splice_eq_wrapped (by decide) (by decide) (by decide) (add_modEq 16 (by decide) c.ac 1)
  | true =>
    have hbits : pageBits c = 17 := by unfold pageBits; rw [hs]; rfl
    rw [hbits] at hpage ⊢
    have hkeep : c.ac &&& 0xfffe0000#32 &&& mask = c.ac &&& 0xfffe0000#32 :=
      and_mask_of_page (by decide) (by decide) hbase hpage
    rw [hkeep]
    by_cases hd : c.mode &&& 0x20 ≠ 0
    · simp only [Bool.not_true, Bool.false_eq_true, if_false, if_pos hd]
      exact splice_eq_wrapped (by decide) (by decide) (by decide) (sub_modEq 17 (by decide) c.ac 2)
    · simp only [Bool.not_true, Bool.false_eq_true, if_false, if_neg hd]
      exact splice_eq_wrapped (by decide) (by decide) (by decide) (add_modEq 17 (by decide) c.ac 2)

/-! ## One transfer -/

section

variable {ch : Nat} {s : State Mem}

/-- The channel after its count has moved on. -/
def counted (c : Dma_t) : Dma_t :=
  if c.cc < 1 ∧ autoInit c = true then { c with cc := c.cb.toNat, ac := c.ab }
  else { c with cc := c.cc - 1 }

theorem onChannel_onChannel (f g : Dma_t → Dma_t) :
    onChannel ch g (onChannel ch f s) = onChannel ch (fun c => g (f c)) s := by
  unfold onChannel
  simp only [Function.update_self, Function.update_idem]

theorem dma_onChannel (f : Dma_t → Dma_t) : (onChannel ch f s).dma ch = f (s.dma ch) :=
  Function.update_self ..

theorem countTransfer_eq :
    countTransfer ch s =
      (decide ((s.dma ch).cc < 1),
        { onChannel ch counted s with
          dma_m :=
            if (s.dma ch).cc < 1 ∧ autoInit (s.dma ch) = false then s.dma_m ||| bit ch
            else s.dma_m
          dma_stat := if (s.dma ch).cc < 1 then s.dma_stat ||| bit ch else s.dma_stat }) := by
  have hcc : (s.dma ch).cc - 1 < 0 ↔ (s.dma ch).cc < 1 := by omega
  have hauto : (s.dma ch).mode &&& 0x10 ≠ 0 ↔ autoInit (s.dma ch) = true :=
    decide_eq_true_iff.symm
  unfold countTransfer
  simp only [dma_onChannel, onChannel_onChannel, hcc, hauto]
  unfold onChannel counted
  by_cases hlast : (s.dma ch).cc < 1
  · cases autoInit (s.dma ch) <;> simp [hlast]
  · simp [hlast]

theorem mask_set (x : BitVec 8) (hbit : bit ch ≠ 0) : (x ||| bit ch) &&& bit ch ≠ 0 := by
  have heq : (x ||| bit ch) &&& bit ch = bit ch := by
    rw [BitVec.and_comm]
    exact BitVec.eq_of_getLsbD_eq fun i _ => by
      simp only [BitVec.getLsbD_and, BitVec.getLsbD_or]
      cases (bit ch).getLsbD i <;> simp
  rw [heq]
  exact hbit

theorem mask_cleared (x : BitVec 8) : x &&& ~~~bit ch &&& bit ch = 0 := by
  apply BitVec.eq_of_getLsbD_eq
  intro i hi
  simp only [BitVec.getLsbD_and, BitVec.getLsbD_not]
  cases (bit ch).getLsbD i <;> simp

/-! ## One call -/

/-- Calls that read memory for a device, or that write what a device gives for each call. -/
inductive Op where
  | read
  | write (val : Nat → BitVec 16)

/-- Call `k` of a run. -/
def transfer (bus : Bus Mem) (op : Op) (ch k : Nat) (s : State Mem) : BitVec 32 × State Mem :=
  match op with
  | .read => dma_channel_read_legacy bus ch s
  | .write val => dma_channel_write_legacy bus ch (val k) s

def masked (ch : Nat) (s : State Mem) : Bool := s.dma_m &&& bit ch ≠ 0

/-- Where the transfer starts: a read first counts the transfer that `read_only` left. -/
def before (op : Op) (ch : Nat) (s : State Mem) : State Mem :=
  match op with
  | .read => if pending ch s = true then (dma_channel_advance_legacy ch s).2 else s
  | .write _ => s

/-- One unit is moved at an address, and nothing is when the channel verifies. -/
def Data (bus : Bus Mem) (op : Op) (k : Nat) (c : Dma_t) (addr : BitVec 32) (mem mem' : Mem)
    (r : BitVec 32) : Prop :=
  match op with
  | .read => (r.setWidth 16, mem') = readUnit bus c.size addr mem
  | .write val =>
    mem' = if c.mode &&& 0x0c = 0x04 then writeUnit bus c.size addr (val k) mem else mem

/-- What a call tells of: a read of its own terminal count, a write of the mask. -/
def Tells (op : Op) (ch : Nat) (c : Dma_t) (s' : State Mem) : Prop :=
  match op with
  | .read => c.cc < 1
  | .write _ => masked ch s' = true

theorem over_of_data (temp : BitVec 16) (tc : Bool) :
    (if tc = true then temp.setWidth 32 ||| DMA_OVER else temp.setWidth 32) &&& DMA_OVER ≠ 0 ↔
      tc = true := by
  have hnone : temp.setWidth 32 &&& DMA_OVER = 0 := by
    apply BitVec.eq_of_toNat_eq
    have hlt := temp.isLt
    have hfield : temp.toNat &&& 0x10000 = temp.toNat / 2 ^ 16 % 2 ^ 1 * 2 ^ 16 :=
      decimal.and_field temp.toNat 1 16
    have hover : DMA_OVER.toNat = 0x10000 := rfl
    have hwide : (temp.setWidth 32).toNat = temp.toNat := by
      rw [BitVec.toNat_setWidth]
      omega
    rw [BitVec.toNat_and, hover, hwide, hfield, Nat.div_eq_of_lt hlt]
    rfl
  cases tc with
  | false => exact iff_of_false (fun h => h hnone) nofun
  | true =>
    refine iff_of_true (fun h => ?_) rfl
    have hself : (temp.setWidth 32 ||| DMA_OVER) &&& DMA_OVER = DMA_OVER := by
      rw [BitVec.and_comm]
      exact BitVec.eq_of_getLsbD_eq fun i _ => by
        simp only [BitVec.getLsbD_and, BitVec.getLsbD_or]
        cases DMA_OVER.getLsbD i <;> simp
    rw [if_pos rfl, hself] at h
    exact absurd h (by decide)

theorem over_of_mask (m : BitVec 8) :
    (if m &&& bit ch ≠ 0 then DMA_OVER else 0) &&& DMA_OVER ≠ 0 ↔ m &&& bit ch ≠ 0 := by
  by_cases hm : m &&& bit ch ≠ 0
  · rw [if_pos hm]
    exact iff_of_true (by decide) hm
  · rw [if_neg hm]
    exact iff_of_false (by decide) hm

theorem data_of_result (temp : BitVec 16) (tc : Bool) :
    (if tc = true then temp.setWidth 32 ||| DMA_OVER else temp.setWidth 32).setWidth 16 =
      temp := by
  have hover : DMA_OVER.setWidth 16 = 0#16 := by decide
  have hdata : (temp.setWidth 32).setWidth 16 = temp := by
    rw [BitVec.setWidth_setWidth_of_le _ (by decide), BitVec.setWidth_eq]
  cases tc with
  | false => exact hdata
  | true => rw [if_pos rfl, BitVec.setWidth_or, hdata, hover, BitVec.or_zero]

/-- A call that is not refused. -/
structure Call (bus : Bus Mem) (op : Op) (ch k : Nat) (s s' : State Mem) (r : BitVec 32) :
    Prop where
  bit_ne : bit ch ≠ 0
  moved : s'.moved = s.moved ++ [((before op ch s).dma ch).ac]
  data : Data bus op k (s.dma ch) ((before op ch s).dma ch).ac s.mem s'.mem r
  channel : s'.dma ch =
    counted
      { (before op ch s).dma ch with
        ac := nextAddress s.dma_mask ((before op ch s).dma ch) }
  mask : s'.dma_m =
    if ((before op ch s).dma ch).cc < 1 ∧ autoInit (s.dma ch) = false then
      (before op ch s).dma_m ||| bit ch
    else (before op ch s).dma_m
  stat : s'.dma_stat =
    if ((before op ch s).dma ch).cc < 1 then (before op ch s).dma_stat ||| bit ch
    else (before op ch s).dma_stat
  dma_mask : s'.dma_mask = s.dma_mask
  pending : pending ch s' = false
  told : r &&& DMA_OVER ≠ 0 ↔ Tells op ch ((before op ch s).dma ch) s'

theorem counted_fixed (c : Dma_t) :
    (counted c).mode = c.mode ∧ (counted c).size = c.size ∧ (counted c).ab = c.ab ∧
      (counted c).cb = c.cb := by
  unfold counted
  split_ifs <;> exact ⟨rfl, rfl, rfl, rfl⟩

/-- What the pending count leaves alone. -/
theorem before_fixed (op : Op) (ch : Nat) (s : State Mem) :
    (before op ch s).moved = s.moved ∧ (before op ch s).mem = s.mem ∧
      (before op ch s).dma_mask = s.dma_mask ∧
      ((before op ch s).dma ch).mode = (s.dma ch).mode ∧
      ((before op ch s).dma ch).size = (s.dma ch).size ∧
      ((before op ch s).dma ch).ab = (s.dma ch).ab ∧
      ((before op ch s).dma ch).cb = (s.dma ch).cb := by
  cases op with
  | write val => exact ⟨rfl, rfl, rfl, rfl, rfl, rfl, rfl⟩
  | read =>
    unfold before
    by_cases hp : pending ch s = true
    · have hfixed := counted_fixed (s.dma ch)
      have hchannel : (onChannel ch counted s).dma ch = counted (s.dma ch) := dma_onChannel counted
      unfold dma_channel_advance_legacy
      simp only [if_pos hp, countTransfer_eq, hchannel]
      exact ⟨rfl, rfl, rfl, hfixed⟩
    · simp only [if_neg hp, and_self]

theorem pending_before (ch : Nat) (s : State Mem) : pending ch (before .read ch s) = false := by
  unfold before
  by_cases hp : pending ch s = true
  · rw [if_pos hp]
    unfold dma_channel_advance_legacy
    rw [if_pos hp]
    exact decide_eq_false (fun h => h (mask_cleared _))
  · rw [if_neg hp]
    simpa using hp

/-- One transfer and its count. -/
theorem countTransfer_moveOn (b : State Mem) (mem : Mem) (rq pend : BitVec 8) :
    countTransfer ch
        { moveOn ch mem b with dma_stat_rq := rq, dma_stat_adv_pend := pend } =
      (decide ((b.dma ch).cc < 1),
        { onChannel ch (fun c => counted { c with ac := nextAddress b.dma_mask c }) b with
          mem := mem
          moved := b.moved ++ [(b.dma ch).ac]
          dma_stat_rq := rq
          dma_stat_adv_pend := pend
          dma_m :=
            if (b.dma ch).cc < 1 ∧ autoInit (b.dma ch) = false then b.dma_m ||| bit ch
            else b.dma_m
          dma_stat := if (b.dma ch).cc < 1 then b.dma_stat ||| bit ch else b.dma_stat }) := by
  have hchannel : (moveOn ch mem b).dma ch =
      { b.dma ch with ac := nextAddress b.dma_mask (b.dma ch) } :=
    dma_onChannel (s := b) (fun c => { c with ac := nextAddress b.dma_mask c })
  have hauto : autoInit { b.dma ch with ac := nextAddress b.dma_mask (b.dma ch) } =
      autoInit (b.dma ch) := rfl
  rw [countTransfer_eq]
  simp only [hchannel, hauto]
  unfold moveOn onChannel
  simp only [Function.update_self, Function.update_idem]

/-- What the mode of a channel that is served says. -/
theorem read_served {bus : Bus Mem} (hok : (dma_channel_read_legacy bus ch s).1 ≠ DMA_NODATA) :
    refused ch s = false ∧ (s.dma ch).mode &&& 0xC = 8 := by
  unfold dma_channel_read_legacy at hok
  split_ifs at hok with hr hm
  · exact absurd rfl hok
  · exact absurd rfl hok
  · exact ⟨by simpa using hr, by simpa using hm⟩
  · exact ⟨by simpa using hr, by simpa using hm⟩

theorem bit_ne_of_served (h : refused ch s = false) : bit ch ≠ 0 := by
  intro h0
  unfold refused at h
  rw [h0] at h
  simp at h

theorem call_of_read (bus : Bus Mem) (k : Nat)
    (hok : (dma_channel_read_legacy bus ch s).1 ≠ DMA_NODATA) :
    Call bus .read ch k s (dma_channel_read_legacy bus ch s).2
      (dma_channel_read_legacy bus ch s).1 := by
  obtain ⟨hserved, hmode⟩ := read_served hok
  obtain ⟨hmoved, hmem, hmask, hbmode, hbsize, -, -⟩ := before_fixed .read ch s
  have hpend := pending_before ch s
  have hauto : autoInit ((before .read ch s).dma ch) = autoInit (s.dma ch) := by
    unfold autoInit
    rw [hbmode]
  have heq : dma_channel_read_legacy bus ch s =
      let b := before .read ch s
      let unit := readUnit bus (b.dma ch).size (b.dma ch).ac b.mem
      let next := countTransfer ch
        { moveOn ch unit.2 b with
          dma_stat_rq := b.dma_stat_rq ||| bit ch
          dma_stat_adv_pend := b.dma_stat_adv_pend }
      (if next.1 = true then unit.1.setWidth 32 ||| DMA_OVER else unit.1.setWidth 32, next.2) := by
    unfold dma_channel_read_legacy
    rw [if_neg (by rw [hserved]; decide), if_neg (fun h => h hmode)]
    rfl
  rw [heq]
  simp only [countTransfer_moveOn]
  refine ⟨bit_ne_of_served hserved, ?_, ?_, ?_, ?_, rfl, hmask, hpend, ?_⟩
  · rw [hmoved]
  · unfold Data
    simp only [data_of_result, hbsize, hmem]
  · rw [← hmask]
    exact dma_onChannel
      (fun c => counted { c with ac := nextAddress (before .read ch s).dma_mask c })
  · rw [hauto]
  · exact (over_of_data _ _).trans decide_eq_true_iff

theorem call_of_write (bus : Bus Mem) (val : Nat → BitVec 16) (k : Nat)
    (hok : (dma_channel_write_legacy bus ch (val k) s).1 ≠ DMA_NODATA) :
    Call bus (.write val) ch k s (dma_channel_write_legacy bus ch (val k) s).2
      (dma_channel_write_legacy bus ch (val k) s).1 := by
  have hserved : refused ch s = false := by
    by_contra hr
    unfold dma_channel_write_legacy at hok
    rw [if_pos (by simpa using hr)] at hok
    exact hok rfl
  have htype : ¬((s.dma ch).mode &&& 0x0c ≠ 0x04 ∧ (s.dma ch).mode &&& 0x0c ≠ 0x00) := by
    intro ht
    unfold dma_channel_write_legacy at hok
    rw [if_neg (by rw [hserved]; decide)] at hok
    simp only [if_pos ht] at hok
    exact hok rfl
  have heq : dma_channel_write_legacy bus ch (val k) s =
      let mem :=
        if (s.dma ch).mode &&& 0x0c = 0x04 then
          writeUnit bus (s.dma ch).size (s.dma ch).ac (val k) s.mem
        else s.mem
      let next := countTransfer ch
        { moveOn ch mem s with
          dma_stat_rq := s.dma_stat_rq ||| bit ch
          dma_stat_adv_pend := s.dma_stat_adv_pend &&& ~~~bit ch }
      (if next.2.dma_m &&& bit ch ≠ 0 then DMA_OVER else 0, next.2) := by
    unfold dma_channel_write_legacy
    rw [if_neg (by rw [hserved]; decide)]
    simp only [if_neg htype]
    rfl
  rw [heq]
  simp only [countTransfer_moveOn]
  refine ⟨bit_ne_of_served hserved, rfl, rfl, ?_, rfl, rfl, rfl, ?_, ?_⟩
  · exact dma_onChannel (fun c => counted { c with ac := nextAddress s.dma_mask c })
  · exact decide_eq_false (fun h => h (mask_cleared _))
  · exact (over_of_mask _).trans decide_eq_true_iff.symm

theorem call_of_transfer (bus : Bus Mem) (op : Op) (k : Nat)
    (hok : (transfer bus op ch k s).1 ≠ DMA_NODATA) :
    Call bus op ch k s (transfer bus op ch k s).2 (transfer bus op ch k s).1 := by
  cases op with
  | read => exact call_of_read bus k hok
  | write val => exact call_of_write bus val k hok

end

end blumach.dma
