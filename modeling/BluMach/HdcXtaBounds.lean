-- The buffer pointer of the XTA controllers: where each access by it goes, over every run of port
-- accesses, callbacks and DMA.
import BluMach.Guarded
import BluMach.HdcXta
import Mathlib.Tactic.SplitIfs

namespace blumach.hdc_xta

open HdcState guarded

/-! ## The condition -/

/-- The bytes of the buffer that have gone by DMA: `buf_ptr` went with them. -/
def moved (dev : Hdc) : Nat := dev.buf_ptr.elim 0 Ptr.off

/-- The data port gives a byte of the buffer. In READ_VERIFY the pointer is still that of the device
control block. Else the place is `buf_idx`, from where DMA left the pointer. -/
def Meets (dev : Hdc) : Op → Prop
  | .read port => port &&& 3 = 0 → dev.state = STATE_SDATA →
    (cmd dev = CMD_READ_VERIFY → dev.buf_idx < 6) ∧ moved dev + dev.buf_idx < LONG_SECTOR_SIZE
  | _ => True

/-! ## The invariant -/

/-- A device control block has come, or comes. -/
structure Base (dev : Hdc) : Prop where
  ptr : dev.buf_ptr.isSome = true
  pos : 0 < dev.buf_len
  idx : dev.buf_idx ≤ dev.buf_len
  len : dev.buf_len ≤ LONG_SECTOR_SIZE
  wide : SECTOR_SIZE < dev.buf_len → cmd dev = CMD_READ_LONG ∨ cmd dev = CMD_WRITE_LONG
  verify : cmd dev = CMD_READ_VERIFY → dev.buf_ptr = some ⟨.dcb, 0⟩

/-- A buffer that is being received starts where its array does. -/
def Receives (dev : Hdc) : Prop :=
  dev.buf_idx < dev.buf_len ∧ ∃ area, dev.buf_ptr = some ⟨area, 0⟩ ∧ dev.buf_len ≤ area.size

/-- A buffer that is being sent is one of the large ones, and DMA is not ahead of the index. -/
def Sends (dev : Hdc) : Prop :=
  dev.buf_idx < dev.buf_len ∧ (cmd dev ≠ CMD_READ_VERIFY →
    ∃ area off, dev.buf_ptr = some ⟨area, off⟩ ∧ area.size = LONG_SECTOR_SIZE ∧ off ≤ dev.buf_idx)

structure On (dev : Hdc) : Prop where
  base : Base dev
  receives : dev.state = STATE_RDATA → Receives dev
  sends : dev.state = STATE_SDATA → Sends dev

/-- No device control block has come since the reset. -/
structure Off (dev : Hdc) : Prop where
  state : dev.state = STATE_IDLE
  timer : dev.timer = false
  idx : dev.buf_idx ≤ dev.buf_len

def Inv (dev : Hdc) : Prop := Off dev ∨ On dev

theorem inv_initial (type : Nat) (sw : Byte) (drives : Bool → Drive) :
    Inv (initial type sw drives) := Or.inl ⟨rfl, rfl, Nat.le_refl 0⟩

theorem Inv.idx {dev : Hdc} (h : Inv dev) : dev.buf_idx ≤ dev.buf_len := by
  rcases h with h | h
  · exact h.idx
  · exact h.base.idx

/-! ## What leaves the buffer alone -/

/-- The fields of the transfer are as they were. -/
structure Same (dev dev' : Hdc) : Prop where
  state : dev'.state = dev.state
  buf_idx : dev'.buf_idx = dev.buf_idx
  buf_len : dev'.buf_len = dev.buf_len
  buf_ptr : dev'.buf_ptr = dev.buf_ptr
  dcb : dev'.dcb = dev.dcb

section

variable {dev dev' dev'' : Hdc}

theorem Same.refl (dev : Hdc) : Same dev dev := ⟨rfl, rfl, rfl, rfl, rfl⟩

theorem Same.trans (h : Same dev dev') (h' : Same dev' dev'') : Same dev dev'' :=
  ⟨h'.state.trans h.state, h'.buf_idx.trans h.buf_idx, h'.buf_len.trans h.buf_len,
    h'.buf_ptr.trans h.buf_ptr, h'.dcb.trans h.dcb⟩

theorem Same.cmd (h : Same dev dev') : cmd dev' = cmd dev := by
  unfold hdc_xta.cmd
  rw [h.dcb]

theorem Same.base (h : Same dev dev') (hb : Base dev) : Base dev' := by
  obtain ⟨hptr, hpos, hidx, hlen, hwide, hverify⟩ := hb
  refine ⟨?_, ?_, ?_, ?_, ?_, ?_⟩
  · rw [h.buf_ptr]
    exact hptr
  · rw [h.buf_len]
    exact hpos
  · rw [h.buf_idx, h.buf_len]
    exact hidx
  · rw [h.buf_len]
    exact hlen
  · rw [h.buf_len, h.cmd]
    exact hwide
  · rw [h.cmd, h.buf_ptr]
    exact hverify

theorem same_get_sector {o : Option Nat} (h : get_sector dev = (dev', o)) : Same dev dev' := by
  unfold get_sector at h
  split_ifs at h <;> cases h <;> exact ⟨rfl, rfl, rfl, rfl, rfl⟩

theorem same_image_read {host : Host} {addr : Nat} {found : Bool}
    (h : hdd_image_read host addr dev = (dev', found)) : Same dev dev' := by
  unfold hdd_image_read at h
  dsimp only at h
  split at h <;> cases h <;> exact ⟨rfl, rfl, rfl, rfl, rfl⟩

theorem same_image_write {host : Host} {addr : Nat} {done : Bool}
    (h : hdd_image_write host addr dev = (dev', done)) : Same dev dev' := by
  unfold hdd_image_write at h
  cases h
  exact ⟨rfl, rfl, rfl, rfl, rfl⟩

theorem same_next_sector (dev : Hdc) : Same dev (next_sector dev) := by
  unfold next_sector
  dsimp only
  split_ifs <;> exact ⟨rfl, rfl, rfl, rfl, rfl⟩

theorem same_formatSectors (host : Host) (h : Byte) (n : Nat) (s : Byte) (dev : Hdc) :
    Same dev (formatSectors host h n s dev) := by
  induction n generalizing s dev with
  | zero => exact .refl dev
  | succ n ih =>
    unfold formatSectors
    have hset : Same dev { dev with head := h, sector := s } := ⟨rfl, rfl, rfl, rfl, rfl⟩
    rcases hget : get_sector { dev with head := h, sector := s } with ⟨t, _ | addr⟩
    · exact hset.trans (same_get_sector hget)
    · rcases hwrite : hdd_image_write host addr t with ⟨u, done⟩
      have hall := (hset.trans (same_get_sector hget)).trans (same_image_write hwrite)
      dsimp only
      rw [hwrite]
      refine hall.trans (Same.trans ?_ (ih ..))
      split_ifs
      · exact .refl u
      · exact ⟨rfl, rfl, rfl, rfl, rfl⟩

theorem same_formatHeads (host : Host) (n : Nat) (h : Byte) (dev : Hdc) :
    Same dev (formatHeads host n h dev) := by
  induction n generalizing h dev with
  | zero => exact .refl dev
  | succ n ih => exact (same_formatSectors host h _ 0 dev).trans (ih ..)

theorem same_iterate {f : Hdc → Hdc} (h : ∀ dev, Same dev (f dev)) (n : Nat) (dev : Hdc) :
    Same dev (f^[n] dev) := by
  induction n generalizing dev with
  | zero => exact .refl dev
  | succ n ih => exact (h dev).trans (ih (f dev))

theorem same_do_format (host : Host) (dev : Hdc) : Same dev (do_format host dev) := by
  unfold do_format
  by_cases hidle : dev.state = STATE_IDLE
  · dsimp only
    rw [if_pos hidle]
    generalize formatRounds dev = rounds
    refine Same.trans ?_ (same_iterate (fun t => same_formatHeads host _ _ t) rounds _)
    exact ⟨rfl, rfl, rfl, rfl, rfl⟩
  · dsimp only
    rw [if_neg hidle]
    exact .refl dev

/-! ## The ends of commands -/

theorem Base.settled (h : Base dev) (hr : dev.state ≠ STATE_RDATA) (hs : dev.state ≠ STATE_SDATA) :
    Inv dev := Or.inr ⟨h, fun hno => absurd hno hr, fun hno => absurd hno hs⟩

theorem inv_set_intr (h : Base dev) : Inv (set_intr dev) :=
  Base.settled ⟨h.ptr, h.pos, h.idx, h.len, h.wide, h.verify⟩ nofun nofun

theorem inv_failed (h : Base dev) : Inv (failed dev) :=
  inv_set_intr ⟨h.ptr, h.pos, h.idx, h.len, h.wide, h.verify⟩

theorem inv_fails (sense : Byte) (h : Base dev) : Inv (fails sense dev) :=
  inv_failed ⟨h.ptr, h.pos, h.idx, h.len, h.wide, h.verify⟩

/-- A handler that leaves the transfer alone. -/
theorem inv_same (h : Same dev dev') (hb : Base dev) (hr : dev.state = STATE_RDATA → Receives dev)
    (hs : dev.state = STATE_SDATA → Sends dev) : Inv dev' := by
  refine Or.inr ⟨h.base hb, fun hstate => ?_, fun hstate => ?_⟩
  · have hold := hr (h.state.symm.trans hstate)
    unfold Receives
    rw [h.buf_idx, h.buf_len, h.buf_ptr]
    exact hold
  · have hold := hs (h.state.symm.trans hstate)
    unfold Sends
    rw [h.buf_idx, h.buf_len, h.buf_ptr, h.cmd]
    exact hold

/-! ## The starts of transfers -/

/-- The start of a buffer: it may be longer than a sector for the long commands only. -/
structure Fits (cmd : Byte) (n : Nat) : Prop where
  pos : 0 < n
  len : n ≤ LONG_SECTOR_SIZE
  wide : SECTOR_SIZE < n → cmd = CMD_READ_LONG ∨ cmd = CMD_WRITE_LONG

theorem fits_small (cmd : Byte) (n : Nat) (hpos : 0 < n) (hle : n ≤ SECTOR_SIZE) : Fits cmd n :=
  ⟨hpos, Nat.le_trans hle (by decide), fun hno => absurd hle (Nat.not_le.mpr hno)⟩

theorem Base.fits (h : Base dev) : Fits (cmd dev) dev.buf_len := ⟨h.pos, h.len, h.wide⟩

theorem base_set {ptr : Ptr} {i : Nat} (h : Fits (cmd dev) dev.buf_len) (hi : dev.buf_idx = i)
    (hle : i ≤ dev.buf_len) (hcmd : cmd dev ≠ CMD_READ_VERIFY) (hptr : dev.buf_ptr = some ptr) :
    Base dev :=
  ⟨by rw [hptr]; rfl, h.pos, Nat.le_trans (Nat.le_of_eq hi) hle, h.len, h.wide,
    fun hno => absurd hno hcmd⟩

/-- A large buffer is sent from its start on. -/
theorem inv_sends {area : Area} (h : Fits (cmd dev) dev.buf_len) (hcmd : cmd dev ≠ CMD_READ_VERIFY)
    (hstate : dev.state = STATE_SDATA) (hi : dev.buf_idx = 0)
    (hptr : dev.buf_ptr = some ⟨area, 0⟩) (harea : area.size = LONG_SECTOR_SIZE) : Inv dev := by
  have hlt : dev.buf_idx < dev.buf_len := by
    rw [hi]
    exact h.pos
  refine Or.inr ⟨base_set h hi (Nat.zero_le _) hcmd hptr, fun hno => ?_,
    fun _ => ⟨hlt, fun _ => ?_⟩⟩
  · exact absurd (hstate.symm.trans hno) nofun
  · exact ⟨area, 0, hptr, harea, Nat.zero_le _⟩

/-- A buffer is received from its start on. -/
theorem inv_receives {area : Area} (h : Fits (cmd dev) dev.buf_len)
    (hcmd : cmd dev ≠ CMD_READ_VERIFY)
    (hstate : dev.state = STATE_RDATA) (hi : dev.buf_idx = 0)
    (hptr : dev.buf_ptr = some ⟨area, 0⟩) (harea : dev.buf_len ≤ area.size) : Inv dev := by
  have hlt : dev.buf_idx < dev.buf_len := by
    rw [hi]
    exact h.pos
  refine Or.inr ⟨base_set h hi (Nat.zero_le _) hcmd hptr, fun _ => ⟨hlt, area, hptr, harea⟩,
    fun hno => ?_⟩
  exact absurd (hstate.symm.trans hno) nofun

theorem inv_offers (h : Fits (cmd dev) dev.buf_len) (hcmd : cmd dev ≠ CMD_READ_VERIFY)
    (hstate : dev.state = STATE_SDATA) (hi : dev.buf_idx = 0) : Inv (offers dev) := by
  unfold offers
  split_ifs
  · exact @inv_sends { dev with buf_ptr := some ⟨.sector_buf, 0⟩, timer := true } .sector_buf h hcmd
      hstate hi rfl rfl
  · exact @inv_sends { dev with
      data := copied dev.buf_len dev.sector_buf dev.data
      buf_ptr := some ⟨.data, 0⟩
      status := dev.status ||| (STAT_REQ ||| STAT_IO) } .data h hcmd hstate hi rfl rfl

theorem inv_awaits (h : Fits (cmd dev) dev.buf_len) (hcmd : cmd dev ≠ CMD_READ_VERIFY)
    (hstate : dev.state = STATE_RDATA) (hi : dev.buf_idx = 0) : Inv (awaits dev) := by
  unfold awaits
  split_ifs
  · exact @inv_receives { dev with buf_ptr := some ⟨.sector_buf, 0⟩, timer := true } .sector_buf h
      hcmd hstate hi rfl h.len
  · exact @inv_receives { dev with buf_ptr := some ⟨.data, 0⟩, status := dev.status ||| STAT_REQ }
      .data h hcmd hstate hi rfl h.len

/-! ## Accesses -/

theorem byteAt_lt {area : Area} {i : Nat} (h : i < area.size) :
    ∃ b, byteAt dev area i = some b := by
  cases area with
  | dcb => exact ⟨dev.dcb[i], Vector.getElem?_eq_getElem h⟩
  | data => exact ⟨dev.data[i], Vector.getElem?_eq_getElem h⟩
  | sector_buf => exact ⟨dev.sector_buf[i], Vector.getElem?_eq_getElem h⟩

theorem byteAt_ge {area : Area} {i : Nat} (h : area.size ≤ i) : byteAt dev area i = none := by
  cases area with
  | dcb => exact Vector.getElem?_eq_none h
  | data => exact Vector.getElem?_eq_none h
  | sector_buf => exact Vector.getElem?_eq_none h

theorem peek_guarded {ptr : Ptr} (h : dev.buf_ptr = some ptr) (i : Nat) :
    Guarded (peek dev i) (ptr.off + i < ptr.area.size) fun _ => True := by
  unfold peek
  rw [h]
  by_cases hlt : ptr.off + i < ptr.area.size
  · obtain ⟨b, hb⟩ := @byteAt_lt dev _ _ hlt
    dsimp only
    rw [hb]
    exact ⟨hlt, trivial⟩
  · dsimp only
    rw [byteAt_ge (Nat.not_lt.mp hlt)]
    exact hlt

theorem putByte_spec (dev : Hdc) (area : Area) (i : Nat) (val : Byte) :
    ∃ dcb data sector_buf, putByte dev area i val =
      { dev with dcb := dcb, data := data, sector_buf := sector_buf } ∧
      (area ≠ .dcb → dcb = dev.dcb) := by
  cases area with
  | dcb => exact ⟨_, _, _, rfl, fun hno => absurd rfl hno⟩
  | data => exact ⟨_, _, _, rfl, fun _ => rfl⟩
  | sector_buf => exact ⟨_, _, _, rfl, fun _ => rfl⟩

/-- A store by the pointer changes its array. -/
theorem poke_spec {area : Area} {off i : Nat} (h : dev.buf_ptr = some ⟨area, off⟩)
    (hlt : off + i < area.size) (val : Byte) :
    ∃ dcb data sector_buf, poke dev i val =
      .ok { dev with dcb := dcb, data := data, sector_buf := sector_buf } ∧
      (area ≠ .dcb → dcb = dev.dcb) := by
  obtain ⟨dcb, data, sector_buf, hput, hdcb⟩ := putByte_spec dev area (off + i) val
  refine ⟨dcb, data, sector_buf, ?_, hdcb⟩
  rw [← hput]
  unfold poke
  rw [h]
  exact if_pos hlt

/-! ## DMA -/

theorem peek_some {ptr : Ptr} {i : Nat} {b : Byte} (h : dev.buf_ptr = some ptr)
    (hb : byteAt dev ptr.area (ptr.off + i) = some b) : peek dev i = .ok b := by
  unfold peek
  rw [h]
  dsimp only
  rw [hb]

/-- To the host DMA moves the pointer and the index together. -/
theorem sendDma_spec (host : Host) {area : Area} (harea : area.size = LONG_SECTOR_SIZE) (n k : Nat)
    {off : Nat} (hptr : dev.buf_ptr = some ⟨area, off⟩) (hoff : off ≤ dev.buf_idx)
    (hn : dev.buf_idx + n = dev.buf_len) (hlen : dev.buf_len ≤ LONG_SECTOR_SIZE) :
    ∃ off idx out status timer done, sendDma host n k dev = .ok ({ dev with
        buf_ptr := some ⟨area, off⟩, buf_idx := idx, dma_out := out, status := status,
        timer := timer }, done) ∧
      off ≤ idx ∧ dev.buf_idx ≤ idx ∧ idx ≤ dev.buf_len ∧
      (done = false → idx < dev.buf_len ∧ timer = true) ∧
      ((∀ j, host.dma j ≠ DMA_NODATA) → done = true) := by
  induction n generalizing k off dev with
  | zero =>
    refine ⟨off, dev.buf_idx, dev.dma_out, dev.status, dev.timer, true, ?_, hoff, Nat.le_refl _,
      by omega, nofun, fun _ => rfl⟩
    rw [← hptr]
    rfl
  | succ n ih =>
    unfold sendDma
    obtain ⟨b, hb⟩ := @byteAt_lt dev area off (by omega)
    rw [peek_some (i := 0) hptr hb]
    dsimp only
    split_ifs with hdma
    · refine ⟨off, dev.buf_idx, dev.dma_out,
        dev.status ||| (STAT_CD ||| STAT_IO ||| STAT_REQ), true,
        false, ?_, hoff, Nat.le_refl _, by omega, fun _ => ⟨by omega, rfl⟩,
        fun hall => absurd hdma (hall k)⟩
      rw [← hptr]
      rfl
    · obtain ⟨off', idx, out, status, timer, done, heq, h1, h2, h3, h4⟩ :=
        @ih (sent b dev) (k + 1) (off + 1) (by rw [sent, hptr]; rfl)
          (Nat.add_le_add_right hoff 1) (by change dev.buf_idx + 1 + n = dev.buf_len; omega) hlen
      refine ⟨off', idx, out, status, timer, done, heq, h1, ?_, h3, h4⟩
      change dev.buf_idx + 1 ≤ idx at h2
      omega

/-- From the host DMA moves the index only. -/
theorem receiveDma_spec (host : Host) {area : Area} (n k : Nat)
    (hptr : dev.buf_ptr = some ⟨area, 0⟩) (hn : dev.buf_idx + n = dev.buf_len)
    (hlen : dev.buf_len ≤ area.size) :
    ∃ dcb data sector_buf idx status timer done, receiveDma host n k dev = .ok ({ dev with
        dcb := dcb, data := data, sector_buf := sector_buf, buf_idx := idx, status := status,
        timer := timer }, done) ∧
      (area ≠ .dcb → dcb = dev.dcb) ∧ dev.buf_idx ≤ idx ∧ idx ≤ dev.buf_len ∧
      (done = false → idx < dev.buf_len ∧ timer = true) ∧
      ((∀ j, host.dma j ≠ DMA_NODATA) → done = true) := by
  induction n generalizing k dev with
  | zero =>
    exact ⟨dev.dcb, dev.data, dev.sector_buf, dev.buf_idx, dev.status, dev.timer, true, rfl,
      fun _ => rfl, Nat.le_refl _, by omega, nofun, fun _ => rfl⟩
  | succ n ih =>
    unfold receiveDma
    split_ifs with hdma
    · exact ⟨dev.dcb, dev.data, dev.sector_buf, dev.buf_idx,
        dev.status ||| (STAT_CD ||| STAT_IO ||| STAT_REQ), true, false, rfl, fun _ => rfl,
        Nat.le_refl _, by omega, fun _ => ⟨by omega, rfl⟩, fun hall => absurd hdma (hall k)⟩
    · obtain ⟨dcb, data, sector_buf, hpoke, hdcb⟩ :=
        poke_spec hptr (show 0 + dev.buf_idx < area.size by omega) (BitVec.ofInt 8 (host.dma k))
      rw [hpoke]
      obtain ⟨dcb', data', sector_buf', idx, status, timer, done, heq, hdcb', h2, h3, h4⟩ :=
        @ih { dev with
          dcb := dcb, data := data, sector_buf := sector_buf, buf_idx := dev.buf_idx + 1 } (k + 1)
          hptr (by change dev.buf_idx + 1 + n = dev.buf_len; omega) hlen
      refine ⟨dcb', data', sector_buf', idx, status, timer, done, heq,
        fun hne => (hdcb' hne).trans (hdcb hne), ?_, h3, h4⟩
      change dev.buf_idx + 1 ≤ idx at h2
      omega

/-! ## The commands -/

/-- A handler ends, and keeps the invariant. -/
def Ends (m : Except Fault Hdc) : Prop := ∃ dev', m = .ok dev' ∧ Inv dev'

theorem ends_ok (h : Inv dev) : Ends (.ok dev) := ⟨dev, rfl, h⟩

/-- A buffer goes out, as far as it does. -/
theorem ends_sdata (host : Host) (dma : Bool) (h : On dev) (hstate : dev.state = STATE_SDATA)
    (hcmd : dma = true → cmd dev ≠ CMD_READ_VERIFY) : Ends (sdata host dma dev) := by
  obtain ⟨⟨hptr, hpos, hidx, hlen, hwide, hverify⟩, -, hsends⟩ := h
  obtain ⟨hlt, hlarge⟩ := hsends hstate
  unfold sdata
  cases dma with
  | false =>
    exact ends_ok (Base.settled ⟨hptr, hpos, hidx, hlen, hwide, hverify⟩ nofun nofun)
  | true =>
    have hne := hcmd rfl
    obtain ⟨area, off, hat, harea, hoff⟩ := hlarge hne
    obtain ⟨off', idx, out, status, timer, done, heq, h1, h2, h3, h4, -⟩ :=
      sendDma_spec host harea (dev.buf_len - dev.buf_idx) 0 hat hoff (by omega) hlen
    rw [if_pos rfl, heq]
    have hbase : ∀ status timer state, Base { dev with
        state := state, buf_ptr := some ⟨area, off'⟩, buf_idx := idx, dma_out := out,
        status := status, timer := timer } := fun _ _ _ =>
      ⟨rfl, hpos, h3, hlen, hwide, fun hno => absurd hno hne⟩
    cases done with
    | true => exact ends_ok (Base.settled (hbase ..) nofun nofun)
    | false =>
      refine ends_ok (Or.inr ⟨hbase status timer dev.state, fun hno => ?_, fun _ => ?_⟩)
      · exact absurd (hstate.symm.trans hno) nofun
      · exact ⟨(h4 rfl).1, fun _ => ⟨area, off', rfl, harea, h1⟩⟩

/-- A buffer comes in, as far as it does. It may be a device control block, that a callback of the
command before it fills. -/
theorem ends_rdata (host : Host) (h : On dev) (hstate : dev.state = STATE_RDATA) :
    Ends (rdata host dev) := by
  obtain ⟨⟨-, hpos, hidx, hlen, hwide, hverify⟩, hreceives, -⟩ := h
  obtain ⟨hlt, area, hat, harea⟩ := hreceives hstate
  unfold rdata
  obtain ⟨dcb, data, sector_buf, idx, status, timer, done, heq, hdcb, h2, h3, h4, -⟩ :=
    receiveDma_spec host (dev.buf_len - dev.buf_idx) 0 hat (by omega) harea
  rw [heq]
  have hbase : ∀ timer state, Base { dev with
      state := state, dcb := dcb, data := data, sector_buf := sector_buf, buf_idx := idx,
      status := status, timer := timer } := fun timer state => by
    by_cases hset : area = .dcb
    · have hsmall : dev.buf_len ≤ 6 := by
        rw [hset] at harea
        exact harea
      refine ⟨by rw [hat]; rfl, hpos, h3, hlen, fun hno => ?_, fun _ => hset ▸ hat⟩
      unfold SECTOR_SIZE at hno
      dsimp only at hno
      omega
    · obtain rfl := hdcb hset
      exact ⟨by rw [hat]; rfl, hpos, h3, hlen, hwide, hverify⟩
  cases done with
  | true => exact ends_ok (Base.settled (hbase ..) nofun nofun)
  | false =>
    refine ends_ok (Or.inr ⟨hbase timer dev.state, fun _ => ?_, fun hno => ?_⟩)
    · exact ⟨(h4 rfl).1, area, hat, harea⟩
    · exact absurd (hstate.symm.trans hno) nofun

/-- The command is not one of those with a long buffer. -/
def Short (dev : Hdc) : Prop := cmd dev ≠ CMD_READ_LONG ∧ cmd dev ≠ CMD_WRITE_LONG

theorem base_startCount (h : Base dev) (hshort : Short dev) : Base (startCount dev) := by
  have hle : dev.buf_len ≤ SECTOR_SIZE := by
    by_contra hno
    rcases h.wide (Nat.not_le.mp hno) with hc | hc
    · exact hshort.1 hc
    · exact hshort.2 hc
  have hfits := fits_small (cmd dev) SECTOR_SIZE (by decide) (by decide)
  exact ⟨h.ptr, hfits.pos, Nat.le_trans h.idx hle, hfits.len, hfits.wide, h.verify⟩

theorem inv_doSend (host : Host) (no_data : Bool) (h : Base dev)
    (hcmd : no_data = true ↔ cmd dev = CMD_READ_VERIFY) : Inv (doSend host no_data dev) := by
  unfold doSend
  rcases hget : get_sector dev with ⟨t, _ | addr⟩
  · exact inv_failed ((same_get_sector hget).base h)
  · have hsame := same_get_sector hget
    dsimp only
    rcases hread : hdd_image_read host addr t with ⟨u, _ | _⟩
    · exact inv_fails _ ((hsame.trans (same_image_read hread)).base h)
    · have hall := hsame.trans (same_image_read hread)
      have hu := hall.base h
      rw [← hall.cmd] at hcmd
      dsimp only
      split_ifs with hno hdma
      · have hverify := hcmd.mp hno
        exact Or.inr ⟨⟨hu.ptr, hu.pos, Nat.zero_le _, hu.len, hu.wide, hu.verify⟩, nofun,
          fun _ => ⟨hu.pos, fun hne => absurd hverify hne⟩⟩
      · have hne : cmd u ≠ CMD_READ_VERIFY := fun hc => hno (hcmd.mpr hc)
        unfold dmaReady
        split_ifs
        · exact @inv_offers { u with
            state := STATE_SDATA, buf_idx := 0, status := u.status ||| STAT_DRQ } hu.fits hne
              rfl rfl
        · exact @inv_offers { u with state := STATE_SDATA, buf_idx := 0 } hu.fits hne rfl rfl
      · have hne : cmd u ≠ CMD_READ_VERIFY := fun hc => hno (hcmd.mpr hc)
        exact @inv_offers { u with state := STATE_SDATA, buf_idx := 0 } hu.fits hne rfl rfl

theorem inv_doRecv (h : Base dev) (hcmd : cmd dev ≠ CMD_READ_VERIFY) : Inv (doRecv dev) := by
  unfold doRecv dmaReady
  dsimp only
  split_ifs
  · exact @inv_awaits { dev with
      state := STATE_RDATA, buf_idx := 0, status := dev.status ||| STAT_DRQ } h.fits hcmd rfl rfl
  · exact @inv_awaits { dev with state := STATE_RDATA, buf_idx := 0 } h.fits hcmd rfl rfl
  · exact @inv_awaits { dev with state := STATE_RDATA, buf_idx := 0 } h.fits hcmd rfl rfl

/-- The next sector, with the buffer from its start on. -/
theorem base_next (count : Int) (h : Base dev) :
    Base (next_sector { dev with buf_idx := 0, count := count }) :=
  (same_next_sector _).base ⟨h.ptr, h.pos, Nat.zero_le _, h.len, h.wide, h.verify⟩

theorem cmd_next (count : Int) :
    cmd (next_sector { dev with buf_idx := 0, count := count }) = cmd dev :=
  (same_next_sector _).cmd

theorem ends_read_sectors (host : Host) (no_data : Bool) (h : On dev) (hshort : Short dev)
    (hcmd : no_data = true ↔ cmd dev = CMD_READ_VERIFY) :
    Ends (cmd_read_sectors host no_data dev) := by
  unfold cmd_read_sectors
  split_ifs with hpresent
  · exact ends_ok (inv_fails _ h.base)
  · split
    · exact ends_ok (inv_doSend host no_data (base_startCount h.base hshort) hcmd)
    · exact ends_ok (inv_doSend host no_data h.base hcmd)
    · rename_i hstate
      refine ends_sdata host (!no_data) h hstate fun hno hc => ?_
      rw [hcmd.mpr hc] at hno
      exact Bool.noConfusion hno
    · dsimp only
      split_ifs
      · exact ends_ok (inv_set_intr ⟨h.base.ptr, h.base.pos, Nat.zero_le _, h.base.len, h.base.wide,
          h.base.verify⟩)
      · exact ends_ok (inv_doSend host no_data (base_next _ h.base) (by rw [cmd_next]; exact hcmd))
    · exact ends_ok (Or.inr h)

theorem same_gather (dev : Hdc) : Same dev (gather dev) := by
  unfold gather
  split_ifs
  · exact .refl dev
  · exact ⟨rfl, rfl, rfl, rfl, rfl⟩

theorem inv_writeSector (host : Host) (h : Base dev) (hcmd : cmd dev ≠ CMD_READ_VERIFY) :
    Inv (writeSector host dev) := by
  unfold writeSector
  rcases hget : get_sector (gather dev) with ⟨t, _ | addr⟩
  · exact inv_failed (((same_gather dev).trans (same_get_sector hget)).base h)
  · have hsame := (same_gather dev).trans (same_get_sector hget)
    dsimp only
    rcases hwrite : hdd_image_write host addr t with ⟨u, _ | _⟩
    · exact inv_fails _ ((hsame.trans (same_image_write hwrite)).base h)
    · have hall := hsame.trans (same_image_write hwrite)
      have hu := hall.base h
      dsimp only
      split_ifs
      · exact inv_set_intr ⟨hu.ptr, hu.pos, Nat.zero_le _, hu.len, hu.wide, hu.verify⟩
      · exact inv_doRecv (base_next _ hu) (by rw [cmd_next, hall.cmd]; exact hcmd)

theorem ends_write_sectors (host : Host) (h : On dev) (hshort : Short dev)
    (hcmd : cmd dev ≠ CMD_READ_VERIFY) : Ends (cmd_write_sectors host dev) := by
  unfold cmd_write_sectors
  split_ifs with hpresent
  · exact ends_ok (inv_fails _ h.base)
  · split
    · exact ends_ok (inv_doRecv (base_startCount h.base hshort) hcmd)
    · exact ends_ok (inv_doRecv h.base hcmd)
    · rename_i hstate
      exact @ends_rdata { dev with status := STAT_BSY } host ⟨⟨h.base.ptr, h.base.pos, h.base.idx,
        h.base.len, h.base.wide, h.base.verify⟩, h.receives, h.sends⟩ hstate
    · exact ends_ok (inv_writeSector host h.base hcmd)
    · exact ends_ok (Or.inr h)

theorem inv_read_sense (h : On dev) (hcmd : cmd dev ≠ CMD_READ_VERIFY) :
    Inv (cmd_read_sense dev) := by
  unfold cmd_read_sense
  split
  · exact @inv_sends _ .data (fits_small _ 4 (by decide) (by decide)) hcmd rfl rfl rfl rfl
  · exact inv_set_intr h.base
  · exact Or.inr h

theorem inv_set_drive_params (h : On dev) (hcmd : cmd dev ≠ CMD_READ_VERIFY) :
    Inv (cmd_set_drive_params dev) := by
  unfold cmd_set_drive_params
  split
  · exact @inv_receives _ .data (fits_small _ 8 (by decide) (by decide)) hcmd rfl rfl rfl
      (show 8 ≤ Area.data.size by decide)
  · exact inv_set_intr ⟨h.base.ptr, h.base.pos, h.base.idx, h.base.len, h.base.wide, h.base.verify⟩
  · exact Or.inr h

theorem ends_read_sector_buffer (host : Host) (h : On dev) (hcmd : cmd dev ≠ CMD_READ_VERIFY) :
    Ends (cmd_read_sector_buffer host dev) := by
  unfold cmd_read_sector_buffer
  split
  · exact ends_ok (@inv_offers { dev with
      buf_idx := 0, buf_len := SECTOR_SIZE, state := STATE_SDATA }
      (fits_small _ SECTOR_SIZE (by decide) (by decide)) hcmd rfl rfl)
  · rename_i hstate
    exact ends_sdata host _ h hstate fun _ => hcmd
  · exact ends_ok (inv_set_intr h.base)
  · exact ends_ok (Or.inr h)

theorem ends_write_sector_buffer (host : Host) (h : On dev) (hcmd : cmd dev ≠ CMD_READ_VERIFY) :
    Ends (cmd_write_sector_buffer host dev) := by
  unfold cmd_write_sector_buffer
  split
  · exact ends_ok (@inv_awaits { dev with
      buf_idx := 0, buf_len := SECTOR_SIZE, state := STATE_RDATA }
      (fits_small _ SECTOR_SIZE (by decide) (by decide)) hcmd rfl rfl)
  · rename_i hstate
    split_ifs
    · exact ends_rdata host h hstate
    · exact ends_ok (Or.inr h)
  · exact ends_ok (inv_set_intr ((same_gather dev).base h.base))
  · exact ends_ok (Or.inr h)

theorem same_seekStart (dev : Hdc) : Same dev (seekStart dev) := ⟨rfl, rfl, rfl, rfl, rfl⟩

theorem inv_readLong (host : Host) (h : Base dev) (hcmd : cmd dev = CMD_READ_LONG) :
    Inv (readLong host dev) := by
  unfold readLong
  rcases hget : get_sector (seekStart dev) with ⟨t, _ | addr⟩
  · exact inv_failed (((same_seekStart dev).trans (same_get_sector hget)).base h)
  · have hsame := (same_seekStart dev).trans (same_get_sector hget)
    dsimp only
    rcases hread : hdd_image_read host addr t with ⟨u, _ | _⟩
    · exact inv_fails _ ((hsame.trans (same_image_read hread)).base h)
    · have hall := hsame.trans (same_image_read hread)
      have hlong : cmd u = CMD_READ_LONG := hall.cmd.trans hcmd
      have hpos : 0 < LONG_SECTOR_SIZE := by decide
      refine inv_offers ⟨hpos, Nat.le_refl _, fun _ => Or.inl hlong⟩ ?_ rfl rfl
      change cmd u ≠ CMD_READ_VERIFY
      rw [hlong]
      decide

theorem ends_read_long (host : Host) (h : On dev) (hcmd : cmd dev = CMD_READ_LONG) :
    Ends (cmd_read_long host dev) := by
  unfold cmd_read_long
  split_ifs with hpresent
  · exact ends_ok (inv_fails _ h.base)
  · split
    · exact ends_ok (inv_readLong host h.base hcmd)
    · rename_i hstate
      refine ends_sdata host _ h hstate fun _ => ?_
      rw [hcmd]
      decide
    · exact ends_ok (inv_set_intr h.base)
    · exact ends_ok (Or.inr h)

theorem inv_writeLong (host : Host) (h : Base dev) : Inv (writeLong host dev) := by
  unfold writeLong
  rcases hget : get_sector (gather dev) with ⟨t, _ | addr⟩
  · exact inv_failed (((same_gather dev).trans (same_get_sector hget)).base h)
  · have hsame := (same_gather dev).trans (same_get_sector hget)
    dsimp only
    rcases hwrite : hdd_image_write host addr t with ⟨u, _ | _⟩
    · exact inv_fails _ ((hsame.trans (same_image_write hwrite)).base h)
    · exact inv_set_intr ((hsame.trans (same_image_write hwrite)).base h)

theorem ends_write_long (host : Host) (h : On dev) (hcmd : cmd dev = CMD_WRITE_LONG) :
    Ends (cmd_write_long host dev) := by
  have hne : cmd dev ≠ CMD_READ_VERIFY := by
    rw [hcmd]
    decide
  unfold cmd_write_long
  by_cases hpresent : (drive dev).present = false
  · rw [if_pos hpresent]
    exact ends_ok (inv_fails _ h.base)
  · rw [if_neg hpresent]
    split
    · exact ends_ok (@inv_awaits { seekStart dev with
        buf_idx := 0, buf_len := LONG_SECTOR_SIZE, state := STATE_RDATA }
        ⟨show 0 < LONG_SECTOR_SIZE by decide, Nat.le_refl _, fun _ => Or.inr hcmd⟩ hne rfl rfl)
    · rename_i hstate
      split_ifs
      · exact ends_rdata host h hstate
      · exact ends_ok (Or.inr h)
    · exact ends_ok (inv_writeLong host h.base)
    · exact ends_ok (Or.inr h)

theorem inv_diags (h : On dev) : Inv (cmd_diags dev) := by
  unfold cmd_diags
  split
  · exact Base.settled ⟨h.base.ptr, h.base.pos, h.base.idx, h.base.len, h.base.wide, h.base.verify⟩
      nofun nofun
  · exact inv_set_intr h.base
  · exact Or.inr h

theorem inv_seek (h : Base dev) : Inv (cmd_seek dev) := by
  have hsame : Same dev (do_seek dev (dcbCylinder dev)) := ⟨rfl, rfl, rfl, rfl, rfl⟩
  unfold cmd_seek
  dsimp only
  split_ifs
  · exact inv_fails _ (hsame.base h)
  · exact inv_set_intr (hsame.base h)
  · exact inv_fails _ h

theorem ends_ite {c : Prop} [Decidable c] {m m' : Except Fault Hdc} (h : c → Ends m)
    (h' : ¬c → Ends m') : Ends (if c then m else m') := by
  split_ifs with hc
  · exact h hc
  · exact h' hc

theorem ends_runCommand (host : Host) (h : On dev) : Ends (runCommand host dev) := by
  have hb := h.base
  unfold runCommand
  refine ends_ite (fun _ => ?_) fun _ => ?_
  · split_ifs
    · exact ends_ok (inv_set_intr hb)
    · exact ends_ok (inv_fails _ hb)
  refine ends_ite (fun _ => ?_) fun _ => ?_
  · unfold cmd_recalibrate
    split_ifs
    · exact ends_ok (inv_set_intr ⟨hb.ptr, hb.pos, hb.idx, hb.len, hb.wide, hb.verify⟩)
    · exact ends_ok (inv_fails _ hb)
  refine ends_ite (fun hc => ?_) fun _ => ?_
  · exact ends_ok (inv_read_sense h (by rw [hc]; decide))
  refine ends_ite (fun hc => ?_) fun hne => ?_
  · exact ends_read_sectors host true h ⟨by rw [hc]; decide, by rw [hc]; decide⟩
      (iff_of_true rfl hc)
  refine ends_ite (fun hc => ?_) fun _ => ?_
  · exact ends_read_sectors host false h ⟨by rw [hc]; decide, by rw [hc]; decide⟩
      (iff_of_false nofun hne)
  refine ends_ite (fun hc => ?_) fun _ => ?_
  · exact ends_write_sectors host h ⟨by rw [hc]; decide, by rw [hc]; decide⟩ hne
  refine ends_ite (fun _ => ?_) fun _ => ?_
  · unfold cmd_format
    split_ifs
    · exact ends_ok (inv_set_intr ((same_do_format host dev).base hb))
    · exact ends_ok (inv_fails _ hb)
  refine ends_ite (fun _ => ends_ok (inv_seek hb)) fun _ => ?_
  refine ends_ite (fun _ => ends_ok (inv_set_drive_params h hne)) fun _ => ?_
  refine ends_ite (fun _ => ends_read_sector_buffer host h hne) fun _ => ?_
  refine ends_ite (fun _ => ends_write_sector_buffer host h hne) fun _ => ?_
  refine ends_ite (fun hc => ends_read_long host h hc) fun _ => ?_
  refine ends_ite (fun hc => ends_write_long host h hc) fun _ => ?_
  refine ends_ite (fun _ => ends_ok (inv_diags h)) fun _ => ?_
  refine ends_ite (fun _ => ?_) fun _ => ends_ok (inv_fails _ hb)
  unfold cmd_drive_diags
  split_ifs
  · exact ends_ok (inv_fails _ hb)
  · exact ends_ok (inv_diags h)

/-! ## The registers -/

theorem inv_taken (h : On dev) (hstate : dev.state = STATE_SDATA) : Inv (taken dev) := by
  obtain ⟨⟨hptr, hpos, hidx, hlen, hwide, hverify⟩, -, hsends⟩ := h
  obtain ⟨hlt, hlarge⟩ := hsends hstate
  unfold taken
  dsimp only
  split_ifs with hlast
  · exact Base.settled ⟨hptr, hpos, hlt, hlen, hwide, hverify⟩ nofun nofun
  · refine Or.inr ⟨⟨hptr, hpos, hlt, hlen, hwide, hverify⟩, fun hno => ?_,
      fun _ => ⟨?_, fun hne => ?_⟩⟩
    · exact absurd (hstate.symm.trans hno) nofun
    · exact Nat.lt_of_le_of_ne hlt hlast
    · obtain ⟨area, off, hat, harea, hoff⟩ := hlarge hne
      exact ⟨area, off, hat, harea, Nat.le_succ_of_le hoff⟩

theorem inv_filled (h : On dev) (hstate : dev.state = STATE_RDATA) : Inv (filled dev) := by
  obtain ⟨⟨hptr, hpos, hidx, hlen, hwide, hverify⟩, hreceives, -⟩ := h
  obtain ⟨hlt, area, hat, harea⟩ := hreceives hstate
  unfold filled
  dsimp only
  split_ifs with hlast hdcb
  · exact Base.settled ⟨hptr, hpos, hlt, hlen, hwide, hverify⟩ nofun nofun
  · exact Base.settled ⟨hptr, hpos, hlt, hlen, hwide, hverify⟩ nofun nofun
  · refine Or.inr ⟨⟨hptr, hpos, hlt, hlen, hwide, hverify⟩, fun _ => ⟨?_, area, hat, harea⟩,
      fun hno => ?_⟩
    · exact Nat.lt_of_le_of_ne hlt hlast
    · exact absurd (hstate.symm.trans hno) nofun

/-- The pointer of a buffer that is being sent. -/
theorem send_place (h : On dev) (hstate : dev.state = STATE_SDATA) :
    ∃ ptr, dev.buf_ptr = some ptr ∧ (ptr.off + dev.buf_idx < ptr.area.size ↔
      (cmd dev = CMD_READ_VERIFY → dev.buf_idx < 6) ∧
        moved dev + dev.buf_idx < LONG_SECTOR_SIZE) := by
  obtain ⟨hlt, hlarge⟩ := h.sends hstate
  unfold moved
  by_cases hcmd : cmd dev = CMD_READ_VERIFY
  · have hat := h.base.verify hcmd
    refine ⟨_, hat, ?_⟩
    have hlen := h.base.len
    rw [hat]
    simp only [Option.elim_some, Nat.zero_add, Area.size, hcmd, forall_const]
    omega
  · obtain ⟨area, off, hat, harea, -⟩ := hlarge hcmd
    refine ⟨_, hat, ?_⟩
    rw [hat]
    simp only [Option.elim_some, harea, hcmd, false_imp_iff, true_and]

theorem inv_status (status : Byte) (h : Inv dev) : Inv { dev with status := status } := by
  rcases h with h | h
  · exact Or.inl ⟨h.state, h.timer, h.idx⟩
  · exact @inv_same dev _ ⟨rfl, rfl, rfl, rfl, rfl⟩ h.base h.receives h.sends

theorem inv_refuses (h : Inv dev) : Inv (refuses dev) := by
  rcases h with h | h
  · exact Or.inl ⟨h.state, h.timer, h.idx⟩
  · exact @inv_same dev _ ⟨rfl, rfl, rfl, rfl, rfl⟩ h.base h.receives h.sends

/-- In a transfer a device control block has come. -/
theorem Inv.on (h : Inv dev) (hstate : dev.state ≠ STATE_IDLE) : On dev :=
  h.resolve_left fun hoff => hstate hoff.state

/-- The data port is read: an access by the pointer in STATE_SDATA only. -/
theorem read_guarded (port : BitVec 16) (h : Inv dev) :
    Guarded (step dev (.read port)) (Meets dev (.read port)) Inv := by
  unfold step
  refine Guarded.map ?_
  unfold hdc_read Meets
  dsimp only
  by_cases hdata : port &&& 3 = 0
  · rw [if_pos hdata]
    refine Guarded.needs hdata ?_
    by_cases hstate : dev.state = STATE_SDATA
    · rw [if_pos hstate]
      refine Guarded.needs hstate ?_
      have hon := h.on (by rw [hstate]; nofun)
      obtain ⟨ptr, hat, hplace⟩ := send_place hon hstate
      have htaken : Inv (taken { dev with status := dev.status &&& ~~~STAT_IRQ }) :=
        inv_taken ((inv_status _ h).on (by rw [hstate]; nofun)) hstate
      rw [if_neg (Nat.not_lt.mpr hon.base.idx)]
      exact Guarded.map ((Guarded.mono
        (@peek_guarded { dev with status := dev.status &&& ~~~STAT_IRQ } ptr hat dev.buf_idx)
        fun _ _ => htaken).congr hplace)
    · rw [if_neg hstate]
      refine Guarded.free hstate ?_
      by_cases hcompl : dev.state = STATE_COMPL
      · rw [if_pos hcompl]
        have hb := (h.on (by rw [hcompl]; nofun)).base
        exact .ok (Base.settled ⟨hb.ptr, hb.pos, hb.idx, hb.len, hb.wide, hb.verify⟩ nofun nofun)
      · rw [if_neg hcompl]
        exact .ok (inv_status _ h)
  · rw [if_neg hdata]
    refine Guarded.free hdata ?_
    split_ifs <;> exact .ok h

theorem inv_reset (h : Inv dev) : Inv (reset dev) := by
  unfold reset
  dsimp only
  split_ifs
  · exact Or.inl ⟨rfl, rfl, Nat.le_refl 0⟩
  · rcases h with h | h
    · exact Or.inl ⟨rfl, h.timer, h.idx⟩
    · exact Base.settled ⟨h.base.ptr, h.base.pos, h.base.idx, h.base.len, h.base.wide,
        h.base.verify⟩ nofun nofun

theorem inv_select (dev : Hdc) : Inv (select dev) := by
  have hfits := fits_small (cmd dev) 6 (by decide) (by decide)
  refine Or.inr ⟨⟨rfl, hfits.pos, Nat.zero_le _, hfits.len, hfits.wide, fun _ => rfl⟩,
    fun _ => ⟨hfits.pos, .dcb, rfl, Nat.le_refl 6⟩, nofun⟩

/-- A register is written: each access by the pointer is inside. -/
theorem ends_write (port : BitVec 16) (val : Byte) (h : Inv dev) :
    Ends (step dev (.write port val)) := by
  unfold step hdc_write
  dsimp only
  refine ends_ite (fun _ => ?_) fun _ => ?_
  · refine ends_ite (fun hstate => ?_) fun _ => ends_ok h
    refine ends_ite (fun _ => ends_ok (inv_refuses h)) fun _ => ?_
    refine ends_ite (fun _ => ends_ok (inv_refuses h)) fun _ => ?_
    have hon := h.on (by rw [hstate]; nofun)
    obtain ⟨hlt, area, hat, harea⟩ := hon.receives hstate
    obtain ⟨dcb, data, sector_buf, hpoke, hdcb⟩ :=
      poke_spec hat (show 0 + dev.buf_idx < area.size by omega) val
    rw [hpoke]
    refine ends_ok (inv_filled ⟨?_, fun _ => ⟨hlt, area, hat, harea⟩, fun hno => ?_⟩ hstate)
    · by_cases hset : area = .dcb
      · have hsmall : dev.buf_len ≤ 6 := by
          rw [hset] at harea
          exact harea
        refine ⟨by rw [hat]; rfl, hon.base.pos, hon.base.idx, hon.base.len, fun hno => ?_,
          fun _ => hset ▸ hat⟩
        unfold SECTOR_SIZE at hno
        dsimp only at hno
        omega
      · obtain rfl := hdcb hset
        exact ⟨hon.base.ptr, hon.base.pos, hon.base.idx, hon.base.len, hon.base.wide,
          hon.base.verify⟩
    · exact absurd (hstate.symm.trans hno) nofun
  · refine ends_ite (fun _ => ends_ok (inv_reset h)) fun _ => ?_
    refine ends_ite (fun _ => ends_ok (inv_select dev)) fun _ => ?_
    rcases h with h | h
    · exact ends_ok (Or.inl ⟨h.state, h.timer, h.idx⟩)
    · exact ends_ok (@inv_same dev _ ⟨rfl, rfl, rfl, rfl, rfl⟩ h.base h.receives h.sends)

theorem ends_callback (host : Host) (h : Inv dev) : Ends (step dev (.callback host)) := by
  unfold step
  dsimp only
  refine ends_ite (fun htimer => ?_) fun _ => ends_ok h
  have hon : On dev := h.resolve_left fun hoff => by
    exact Bool.noConfusion (hoff.timer.symm.trans htimer)
  exact ends_runCommand host ⟨⟨hon.base.ptr, hon.base.pos, hon.base.idx, hon.base.len,
    hon.base.wide, hon.base.verify⟩, hon.receives, hon.sends⟩

end

/-! ## Runs -/

theorem Ends.guarded {m : Except Fault Hdc} (h : Ends m) : Guarded m True Inv := by
  obtain ⟨dev, hm, hinv⟩ := h
  exact .of_ok hm hinv

theorem step_guarded (dev : Hdc) (op : Op) (h : Inv dev) :
    Guarded (step dev op) (Meets dev op) Inv := by
  cases op with
  | callback host => exact (ends_callback host h).guarded
  | read port => exact read_guarded port h
  | write port val => exact (ends_write port val h).guarded

/-- The pointer stays inside its array just when the data port is never read too far: past the
device control block in READ_VERIFY, or past the buffer by the bytes that DMA has already moved.
The index is never past the length. -/
theorem the_pointer_stays_inside_iff (type : Nat) (sw : Byte) (drives : Bool → Drive)
    (ops : List Op) :
    ((∃ dev, ops.foldlM step (initial type sw drives) = .ok dev) ↔
      Along step Meets (initial type sw drives) ops) ∧
    ∀ dev, ops.foldlM step (initial type sw drives) = .ok dev → dev.buf_idx ≤ dev.buf_len := by
  have hrun := guarded_foldlM step_guarded (inv_initial type sw drives) ops
  refine ⟨hrun.isOk_iff, fun dev hdev => ?_⟩
  rw [hdev] at hrun
  exact hrun.2.idx

/-- One drive of 17 sectors a track. -/
def oneDrive : Bool → Drive := fun _ =>
  { present := true, hdd_num := 0, cur_cyl := 0, spt := 17, hpc := 4, tracks := 615, cfg_spt := 17 }

def quiet : Host where
  dma := fun _ => DMA_NODATA
  read := fun _ => some (Vector.replicate 512 0)
  write := fun _ => true

/-- READ_VERIFY has no data, and yet the data port gives some: after the six bytes of the device
control block come those beyond. -/
theorem the_pointer_leaves_the_control_block :
    ¬∀ (type : Nat) (sw : Byte) (drives : Bool → Drive) (ops : List Op),
      ∃ dev, ops.foldlM step (initial type sw drives) = .ok dev := by
  intro h
  obtain ⟨dev, hdev⟩ := h 0 0xff oneDrive
    [.write 0x322 0, .write 0x320 0x05, .write 0x320 0, .write 0x320 0, .write 0x320 0,
      .write 0x320 1, .write 0x320 0, .callback quiet, .read 0x320, .read 0x320, .read 0x320,
      .read 0x320, .read 0x320, .read 0x320, .read 0x320]
  cases hdev

end blumach.hdc_xta
