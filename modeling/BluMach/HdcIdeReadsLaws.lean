-- The worker of an IDE disk is not seen by the guest: a read that it does ahead gives
-- what the callback would have read itself. That needs a request to be there only while
-- its own command waits for the callback, and four kinds of steps can break that.
import BluMach.HdcIdeReads
import Mathlib.Tactic.Tauto
import Mathlib.Tactic.SplitIfs

namespace blumach.hdc_ide

/-! ## The first callback of a read -/

/-- The drive without its request, and with something else in the buffer of the worker. -/
def synchronous (drive : Drive) (before : Sectors) : Drive :=
  { disk := { drive.disk with sector_buffer := before }, pending := none }

section

variable {M : Type} (host : Host M)

/-- The request is for what the registers name, and the result is that of reading it into what
was in the buffer. -/
structure Ahead (drive : Drive) (r : Request) : Prop where
  pending : drive.pending = some r
  initial : drive.disk.do_initial_read = true
  sector : r.sector = BitVec.ofNat 32 (ide_get_sector drive.disk.ide)
  count : r.count = drive.disk.ide.tf.count
  done : ∀ well, r.result = some well → ∃ before,
    host.hdd_image_read drive.disk.image r.sector r.count before =
      (drive.disk.sector_buffer, well)

/-- A change to the drive that the place of the read does not depend on. -/
def KeepsPlace (f : Ide → Ide) : Prop :=
  ∀ ide, ide_get_sector (f ide) = ide_get_sector ide ∧ (f ide).tf.count = ide.tf.count

variable {host} {drive : Drive} {r : Request} {rest : M}

/-- The result of the worker is that of a read now. -/
theorem initialRead_ahead (h : Ahead host drive r) : ∃ before, ∀ f, KeepsPlace f →
    initialRead host (drive.onIde f) = initialRead host ((synchronous drive before).onIde f) := by
  obtain ⟨disk, pending⟩ := drive
  obtain rfl : pending = some r := h.pending
  have hinitial : disk.do_initial_read = true := h.initial
  have hsector : r.sector = BitVec.ofNat 32 (ide_get_sector disk.ide) := h.sector
  have hcount : r.count = disk.ide.tf.count := h.count
  obtain ⟨sector, count, result⟩ := r
  cases result with
  | none =>
    refine ⟨disk.sector_buffer, fun f hf => ?_⟩
    obtain ⟨hplace, hnumber⟩ := hf disk.ide
    unfold initialRead ide_async_read_finish ide_async_read_worker synchronous Drive.onIde
    simp only [hinitial, if_true, hplace, hnumber, ← hsector, ← hcount, Option.map_some,
      Option.map_none, Option.getD_some]
  | some well =>
    obtain ⟨before, hread⟩ := h.done well rfl
    refine ⟨before, fun f hf => ?_⟩
    obtain ⟨hplace, hnumber⟩ := hf disk.ide
    simp only at hread
    unfold initialRead ide_async_read_finish ide_async_read_worker synchronous Drive.onIde
    simp only [hinitial, if_true, hplace, hnumber, ← hsector, ← hcount, Option.map_some,
      Option.map_none, Option.getD_some, hread]

theorem keeps_pio (initial : Bool) :
    KeepsPlace fun ide => if initial then { ide with sector_pos := 0 } else ide := by
  intro ide
  cases initial <;> exact ⟨rfl, rfl⟩

theorem keeps_dma :
    KeepsPlace fun ide => { ide with sector_pos := ide.tf.count, tf := { ide.tf with pos := 0 } } :=
  fun _ => ⟨rfl, rfl⟩

variable {d : Fin 2} {force_ata3 bm : Bool}

variable (host) in
/-- A read command that waits for its callback. The callback will carry it out. -/
structure Waits (carries : Bool) (drive : Drive) (r : Request) : Prop extends
    Ahead host drive r where
  hdd : drive.disk.ide.type = .IDE_HDD
  reads : isRead drive.disk.ide.command = true
  transfer : drive.disk.ide.command = WIN_READ_DMA ∨ drive.disk.ide.command = WIN_READ_DMA_ALT →
    carries = true
  blocks : drive.disk.ide.command = WIN_READ_MULTIPLE → drive.disk.ide.blocksize ≠ 0
  inRange : outOfRange drive.disk.last drive.disk.ide = false
  busy : drive.disk.ide.tf.atastat = BSY_STAT

theorem readSector_ahead (h : Ahead host drive r) : ∃ before,
    readSector host drive = readSector host (synchronous drive before) := by
  obtain ⟨before, heq⟩ := initialRead_ahead h
  refine ⟨before, ?_⟩
  unfold readSector
  exact congrArg (fun p : Drive × Bool => (giveSector p.1, p.2)) (heq _ (keeps_pio _))

theorem win_read_ahead (h : Ahead host drive r)
    (hin : outOfRange drive.disk.last drive.disk.ide = false) : ∃ before,
    win_read host d drive rest = win_read host d (synchronous drive before) rest := by
  obtain ⟨before, heq⟩ := readSector_ahead h
  refine ⟨before, ?_⟩
  have hin' : outOfRange (synchronous drive before).disk.last (synchronous drive before).disk.ide =
      false := hin
  unfold win_read
  rw [hin, hin', heq]
  rfl

theorem win_read_multiple_ahead (h : Ahead host drive r)
    (hin : outOfRange drive.disk.last drive.disk.ide = false)
    (hblocks : drive.disk.ide.blocksize ≠ 0) : ∃ before,
    win_read_multiple host d drive rest =
      win_read_multiple host d (synchronous drive before) rest := by
  obtain ⟨before, heq⟩ := readSector_ahead h
  refine ⟨before, ?_⟩
  have hin' : outOfRange (synchronous drive before).disk.last (synchronous drive before).disk.ide =
      false := hin
  have hblocks' : (synchronous drive before).disk.ide.blocksize ≠ 0 := hblocks
  unfold win_read_multiple
  rw [if_neg hblocks, if_neg hblocks', hin, hin', heq]
  rfl

theorem win_read_dma_ahead (h : Ahead host drive r)
    (hin : outOfRange drive.disk.last drive.disk.ide = false)
    (hcarries : (!force_ata3 && bm) = true) :
    ∃ before, win_read_dma host force_ata3 bm d drive rest =
      win_read_dma host force_ata3 bm d (synchronous drive before) rest := by
  obtain ⟨before, heq⟩ := initialRead_ahead h
  refine ⟨before, ?_⟩
  have hin' : outOfRange (synchronous drive before).disk.last (synchronous drive before).disk.ide =
      false := hin
  have hgoes : (force_ata3 || !bm) = false := by
    rw [← Bool.not_eq_true', Bool.not_or, Bool.not_not]
    exact hcarries
  unfold win_read_dma
  rw [hgoes, hin, hin']
  simp only [Bool.false_eq_true, if_false]
  rw [heq _ keeps_dma]

/-- The callback of a command that waits does what a synchronous one does. -/
theorem callback_waits (h : Waits host (!force_ata3 && bm) drive r) : ∃ before,
    ide_callback host force_ata3 bm d drive rest =
      ide_callback host force_ata3 bm d (synchronous drive before) rest := by
  have hhdd : ¬drive.disk.ide.type ≠ .IDE_HDD := not_not.mpr h.hdd
  have hhdd' (before : Sectors) : ¬(synchronous drive before).disk.ide.type ≠ .IDE_HDD := hhdd
  have hreads := h.reads
  unfold isRead at hreads
  unfold ide_callback
  simp only [Bool.or_eq_true, decide_eq_true_eq, or_assoc] at hreads
  by_cases hread : drive.disk.ide.command = WIN_READ ∨ drive.disk.ide.command = WIN_READ_NORETRY
  · obtain ⟨before, heq⟩ := @win_read_ahead M host drive r rest d h.toAhead h.inRange
    refine ⟨before, ?_⟩
    rw [if_neg hhdd, if_neg (hhdd' before), if_pos hread, heq]
    exact (if_pos hread).symm
  · by_cases hdma : drive.disk.ide.command = WIN_READ_DMA ∨
        drive.disk.ide.command = WIN_READ_DMA_ALT
    · obtain ⟨before, heq⟩ := @win_read_dma_ahead M host drive r rest d force_ata3 bm h.toAhead
        h.inRange (h.transfer hdma)
      refine ⟨before, ?_⟩
      rw [if_neg hhdd, if_neg (hhdd' before), if_neg hread, if_pos hdma, heq]
      exact ((if_neg hread).trans (if_pos hdma)).symm
    · have hmultiple : drive.disk.ide.command = WIN_READ_MULTIPLE := by tauto
      obtain ⟨before, heq⟩ := @win_read_multiple_ahead M host drive r rest d h.toAhead h.inRange
        (h.blocks hmultiple)
      refine ⟨before, ?_⟩
      rw [if_neg hhdd, if_neg (hhdd' before), if_neg hread, if_neg hdma, if_pos hmultiple, heq]
      exact ((if_neg hread).trans ((if_neg hdma).trans (if_pos hmultiple))).symm

/-! ## Drives without a request -/

theorem initialRead_idle (h : drive.pending = none) :
    (initialRead host drive).1.pending = none := by
  obtain ⟨disk, pending⟩ := drive
  obtain rfl : pending = none := h
  unfold initialRead ide_async_read_finish ide_async_read_worker
  cases hinitial : disk.do_initial_read <;> simp

theorem readSector_idle (h : drive.pending = none) : (readSector host drive).1.pending = none := by
  unfold readSector giveSector
  exact initialRead_idle h

theorem win_read_idle (h : drive.pending = none) :
    (win_read host d drive rest).1.pending = none := by
  have hsector := @readSector_idle M host drive h
  unfold win_read failed
  split_ifs
  · exact h
  · dsimp only
    split_ifs <;> exact hsector

theorem win_read_multiple_idle (h : drive.pending = none) :
    (win_read_multiple host d drive rest).1.pending = none := by
  have hsector := @readSector_idle M host drive h
  unfold win_read_multiple failed
  split_ifs
  · exact h
  · exact h
  all_goals
    dsimp only
    split_ifs <;> exact hsector

theorem win_read_dma_idle (h : drive.pending = none) :
    (win_read_dma host force_ata3 bm d drive rest).1.pending = none := by
  have hread := @initialRead_idle M host (drive.onIde fun ide =>
    { ide with sector_pos := ide.tf.count, tf := { ide.tf with pos := 0 } }) h
  unfold win_read_dma failed
  split_ifs
  · exact h
  · exact h
  · dsimp only
    split_ifs
    · exact hread
    · cases host.dma with
      | none => exact hread
      | some dma =>
        dsimp only
        split_ifs <;> exact hread

theorem callback_idle (h : drive.pending = none) :
    (ide_callback host force_ata3 bm d drive rest).1.pending = none := by
  unfold ide_callback
  dsimp only
  split_ifs
  · exact h
  · exact win_read_idle h
  · exact win_read_dma_idle h
  · exact win_read_multiple_idle h
  · exact h

/-- The callback takes the request of a command that waits. -/
theorem callback_takes (h : Waits host (!force_ata3 && bm) drive r) :
    (ide_callback host force_ata3 bm d drive rest).1.pending = none := by
  obtain ⟨before, heq⟩ := @callback_waits M host drive r rest d force_ata3 bm h
  rw [heq]
  exact callback_idle rfl

theorem bufferRead_idle (h : drive.pending = none) :
    (bufferRead host force_ata3 bm d drive rest).1.pending = none := by
  unfold bufferRead
  dsimp only
  split_ifs
  · exact callback_idle h
  · exact h
  · exact h
  · exact h

theorem read_data_idle (h : drive.pending = none) :
    (ide_read_data host force_ata3 bm d drive rest).2.1.pending = none := by
  unfold ide_read_data
  dsimp only
  cases drive.disk.ide.type with
  | IDE_NONE => exact h
  | IDE_ATAPI => exact h
  | IDE_HDD =>
    dsimp only
    split_ifs
    · exact h
    · exact h
    · exact bufferRead_idle h
    · exact h

theorem write_data_idle (val : BitVec 16) (h : drive.pending = none) :
    (ide_write_data host force_ata3 bm val d drive rest).1.pending = none := by
  unfold ide_write_data
  dsimp only
  cases drive.disk.ide.type with
  | IDE_NONE => exact h
  | IDE_ATAPI => exact h
  | IDE_HDD =>
    dsimp only
    split_ifs
    · exact h
    · exact h
    · exact callback_idle h
    · exact h
    · exact h

/-! ## Drives that wait -/

variable {carries : Bool}

/-- The position in the buffer and the error are not what a command waits with. -/
theorem Waits.onTf (h : Waits host carries drive r) {f : Tf → Tf} {pos : BitVec 32}
    {error : BitVec 8} (hf : f drive.disk.ide.tf =
      { drive.disk.ide.tf with pos := pos, error := error, atastat := BSY_STAT }) :
    Waits host carries (drive.onTf f) r := by
  have heq : drive.onTf f = drive.onTf fun tf =>
      { tf with pos := pos, error := error, atastat := BSY_STAT } := by
    unfold Drive.onTf Drive.onIde
    dsimp only
    rw [hf]
  rw [heq]
  exact ⟨⟨h.pending, h.initial, h.sector, h.count, h.done⟩, h.hdd, h.reads, h.transfer, h.blocks,
    h.inRange, rfl⟩

theorem Waits.onBuffer (h : Waits host carries drive r) (buffer : Sector) :
    Waits host carries { drive with disk := { drive.disk with buffer := buffer } } r :=
  ⟨⟨h.pending, h.initial, h.sector, h.count, h.done⟩, h.hdd, h.reads, h.transfer, h.blocks,
    h.inRange, h.busy⟩

theorem Waits.worker (h : Waits host carries drive r) : ∃ r',
    (ide_async_read_worker host drive).pending = some r' ∧
      Waits host carries (ide_async_read_worker host drive) r' := by
  obtain ⟨disk, pending⟩ := drive
  obtain rfl : pending = some r := h.pending
  obtain ⟨sector, count, result⟩ := r
  cases result with
  | none =>
    refine ⟨_, rfl, ⟨⟨rfl, h.initial, h.sector, h.count, fun well hwell => ?_⟩, h.hdd, h.reads,
      h.transfer, h.blocks, h.inRange, h.busy⟩⟩
    obtain rfl := Option.some.inj hwell
    exact ⟨disk.sector_buffer, rfl⟩
  | some well => exact ⟨_, rfl, h⟩

/-- A waiting drive has a read command, and no other. -/
theorem Waits.command_ne (h : Waits host carries drive r) {val : BitVec 8}
    (hval : isRead val = false) : drive.disk.ide.command ≠ val := fun heq => by
  have hreads := h.reads
  rw [heq, hval] at hreads
  exact Bool.false_ne_true hreads

theorem read_data_waits (h : Waits host carries drive r)
    (hpos : ¬drive.disk.ide.tf.pos + 2 ≥ 512) :
    (ide_read_data host force_ata3 bm d drive rest).2.1 =
      drive.onTf fun tf => { tf with pos := tf.pos + 2 } := by
  have hinvalid := h.command_ne (show isRead WIN_INVALID = false from rfl)
  have hpacket := h.command_ne (show isRead WIN_PACKETCMD = false from rfl)
  unfold ide_read_data
  dsimp only
  rw [h.hdd]
  dsimp only
  rw [if_neg hinvalid, if_neg hpacket]
  exact congrArg (fun p : BitVec 16 × Drive × M => p.2.1) (if_neg hpos)

theorem write_data_waits (val : BitVec 16) (h : Waits host carries drive r) :
    Waits host carries (ide_write_data host force_ata3 bm val d drive rest).1 r := by
  have hinvalid := h.command_ne (show isRead WIN_INVALID = false from rfl)
  have hpacket := h.command_ne (show isRead WIN_PACKETCMD = false from rfl)
  have hmultiple := h.command_ne (show isRead WIN_WRITE_MULTIPLE = false from rfl)
  have hput := (h.onBuffer (putWord val drive.disk.ide.tf.pos drive.disk.buffer)).onTf
    (f := fun tf => { tf with pos := tf.pos + 2 }) (by rw [← h.busy])
  unfold ide_write_data
  dsimp only
  rw [h.hdd]
  dsimp only
  rw [if_neg hinvalid, if_neg hpacket]
  split_ifs with hfull hnow
  · exact absurd hnow.1 hmultiple
  · exact hput.onTf (f := fun tf => { tf with pos := 0, atastat := BSY_STAT }) rfl
  · exact hput

end

/-! ## Boards -/

section

variable {M : Type} {host : Host M} {b b' : Board M} {ch d : Fin 2}

/-- The board can carry a transfer of a disk out. -/
def Board.carries (b : Board M) : Bool := !b.force_ata3 && b.bm

variable (host) in
/-- A request is there only while its own command waits. -/
def Good (b : Board M) : Prop :=
  ∀ d r, (b.drives d).pending = some r →
    b.isShadow d = false ∧ Waits host b.carries (b.drives d) r

/-- No drive has a request. -/
def Idle (b : Board M) : Prop := ∀ d, (b.drives d).pending = none

theorem Idle.good (h : Idle b) : Good host b := fun d r hr => by
  rw [h d] at hr
  cases hr

theorem drives_onDrive (ch i : Fin 2) (f : Drive → Drive) :
    (b.onDrive ch f).drives i = if i = ch then f (b.drives ch) else b.drives i := by
  unfold Board.onDrive
  by_cases hi : i = ch
  · subst hi
    rw [if_pos rfl]
    exact Function.update_self ..
  · rw [if_neg hi]
    exact Function.update_of_ne hi ..

/-- A change to a drive that leaves its request alone. -/
theorem pending_onDrive (ch i : Fin 2) {f : Drive → Drive}
    (hf : (f (b.drives ch)).pending = (b.drives ch).pending) :
    ((b.onDrive ch f).drives i).pending = (b.drives i).pending := by
  rw [drives_onDrive]
  split_ifs with hi
  · subst hi
    exact hf
  · rfl

theorem Good.onDrive (h : Good host b) {f : Drive → Drive}
    (hf : ∀ r, (f (b.drives ch)).pending = some r →
      b.isShadow ch = false ∧ Waits host b.carries (f (b.drives ch)) r) :
    Good host (b.onDrive ch f) := by
  intro i r hr
  rw [drives_onDrive] at hr ⊢
  split_ifs at hr ⊢ with hi
  · subst hi
    exact hf r hr
  · exact h i r hr

theorem Good.run (h : Good host b) {f : Drive → M → Drive × M}
    (hf : ∀ r, (f (b.drives ch) b.rest).1.pending = some r →
      b.isShadow ch = false ∧ Waits host b.carries (f (b.drives ch) b.rest).1 r) :
    Good host (b.run ch f) := by
  exact Good.onDrive (f := fun _ => (f (b.drives ch) b.rest).1) h hf

/-- A step of a drive that has no request before or after. -/
theorem Good.runIdle (h : Good host b) {f : Drive → M → Drive × M}
    (hf : (f (b.drives ch) b.rest).1.pending = none) : Good host (b.run ch f) :=
  h.run fun r hr => by
    rw [hf] at hr
    cases hr

theorem home_of_real (h : b.isShadow ch = false) : b.home ch = ch := by
  unfold Board.home
  rw [h]
  rfl

/-- A waiting drive is busy. -/
theorem busy_waits {carries : Bool} {drive : Drive} {r : Request}
    (h : Waits host carries drive r) : busy drive.disk.ide.tf = true := by
  unfold busy
  rw [h.busy]
  rfl

/-- A drive that is free has no request. -/
theorem Good.free (h : Good host b) (hfree : busy (b.tf ch) = false) :
    (b.drives ch).pending = none ∧ (b.drives (b.home ch)).pending = none := by
  have hhome : (b.drives (b.home ch)).pending = none := by
    cases hr : (b.drives (b.home ch)).pending with
    | none => rfl
    | some r => exact absurd ((busy_waits (h _ r hr).2).symm.trans hfree) (by decide)
  refine ⟨?_, hhome⟩
  cases hr : (b.drives ch).pending with
  | none => rfl
  | some r =>
    rw [home_of_real (h ch r hr).1, hr] at hhome
    cases hhome

/-! ## Changes to a board -/

/-- What the board is, and the drives with a request, are left as they are. -/
structure Spares (b b' : Board M) : Prop where
  shadow : b'.shadow = b.shadow
  force_ata3 : b'.force_ata3 = b.force_ata3
  bm : b'.bm = b.bm
  idle : ∀ d, (b.drives d).pending = none → (b'.drives d).pending = none
  waiting : ∀ d r, (b.drives d).pending = some r → b'.drives d = b.drives d

theorem Spares.refl (b : Board M) : Spares b b := ⟨rfl, rfl, rfl, fun _ h => h, fun _ _ _ => rfl⟩

theorem Spares.trans {b'' : Board M} (h : Spares b b') (h' : Spares b' b'') : Spares b b'' where
  shadow := h'.shadow.trans h.shadow
  force_ata3 := h'.force_ata3.trans h.force_ata3
  bm := h'.bm.trans h.bm
  idle d hd := h'.idle d (h.idle d hd)
  waiting d r hr := by
    have hkept := h.waiting d r hr
    exact (h'.waiting d r (by rw [hkept]; exact hr)).trans hkept

theorem Spares.good (hs : Spares b b') (h : Good host b) : Good host b' := by
  intro d r hr
  cases hd : (b.drives d).pending with
  | none =>
    rw [hs.idle d hd] at hr
    cases hr
  | some r' =>
    have hkept := hs.waiting d r' hd
    rw [hkept] at hr ⊢
    have hwaits := h d r hr
    unfold Board.isShadow Board.carries at hwaits ⊢
    rw [hs.shadow, hs.force_ata3, hs.bm]
    exact hwaits

theorem Spares.onDrive {f : Drive → Drive} (hidle : (b.drives ch).pending = none)
    (hf : (f (b.drives ch)).pending = none) : Spares b (b.onDrive ch f) where
  shadow := rfl
  force_ata3 := rfl
  bm := rfl
  idle i hi := by
    rw [drives_onDrive]
    split_ifs
    · exact hf
    · exact hi
  waiting i r hr := by
    rw [drives_onDrive]
    split_ifs with hi
    · subst hi
      rw [hidle] at hr
      cases hr
    · rfl

theorem Spares.onIde {f : Ide → Ide} (hidle : (b.drives ch).pending = none) :
    Spares b (b.onDrive ch fun drive => drive.onIde f) := .onDrive hidle hidle

theorem Spares.onTf {f : Tf → Tf} (hidle : (b.drives (b.home ch)).pending = none) :
    Spares b (b.onTf ch f) := .onDrive hidle hidle

theorem Good.whenFree (h : Good host b) {g : Board M → Board M}
    (hg : (b.drives ch).pending = none → (b.drives (b.home ch)).pending = none → Spares b (g b)) :
    Spares b (b.whenFree ch g) := by
  unfold Board.whenFree
  cases hfree : busy (b.tf ch) with
  | true => exact .refl b
  | false => exact hg (h.free hfree).1 (h.free hfree).2

theorem Spares.register {f : Tf → Tf} {f' : Ide → Ide} (hch : (b.drives ch).pending = none)
    (hhome : (b.drives (b.home ch)).pending = none) :
    Spares b ((b.onTf ch f).onDrive ch fun drive => drive.onIde f') :=
  (Spares.onTf hhome).trans (.onIde ((Spares.onTf hhome).idle ch hch))

theorem register_spares (addr : BitVec 3) (val : BitVec 8) (ch : Fin 2) (h : Good host b) :
    Spares b (writeRegister host addr val ch b) := by
  unfold writeRegister
  refine h.whenFree fun hch hhome => ?_
  split
  · exact ⟨rfl, rfl, rfl, fun _ h => h, fun _ _ _ => rfl⟩
  · exact .onTf hhome
  · exact .register hch hhome
  · split_ifs
    · exact .refl b
    · exact .register hch hhome
  · split_ifs
    · exact .refl b
    · exact .register hch hhome
  · exact .refl b

theorem head_spares (val : BitVec 8) (source ch : Fin 2) (h : Good host b) :
    Spares b (writeHead val source ch b) := by
  unfold writeHead
  exact h.whenFree fun hch hhome => .register hch hhome

theorem heads_good (val : BitVec 8) (ch : Fin 2) (h : Good host b) :
    Good host (writeHead val ch (1 - ch) (writeHead val ch ch b)) := by
  have hfirst := (head_spares val ch ch h).good h
  exact (head_spares val ch (1 - ch) hfirst).good hfirst

/-! ## Resets -/

theorem signature_pending (ch i : Fin 2) :
    ((ide_set_signature ch b).drives i).pending = (b.drives i).pending := by
  unfold ide_set_signature Board.onTf
  exact pending_onDrive _ _ rfl

theorem posted_pending (ch i : Fin 2) :
    ((posted ch b).drives i).pending = (b.drives i).pending := by
  unfold posted Board.onTf
  exact pending_onDrive _ _ rfl

theorem registers_pending (ch i : Fin 2) :
    ((ide_reset_registers ch b).drives i).pending = (b.drives i).pending := by
  unfold ide_reset_registers Board.onTf
  dsimp only
  rw [pending_onDrive ch i rfl, pending_onDrive _ i rfl, signature_pending]

theorem discard_idle (drive : Drive) : (ide_async_read_discard host drive).pending = none := by
  unfold ide_async_read_discard ide_async_read_finish ide_async_read_worker
  obtain ⟨disk, pending⟩ := drive
  rcases pending with _ | ⟨sector, count, _ | well⟩ <;> rfl

/-- A drive that is reset has no request any more, and no other drive gets one. -/
theorem dev_reset_pending (ch i : Fin 2) :
    ((dev_reset host ch b).drives i).pending =
      if i = ch then none else (b.drives i).pending := by
  have hall :
        ((ide_set_signature ch (b.onDrive ch (ide_async_read_discard host))).drives i).pending =
      if i = ch then none else (b.drives i).pending := by
    rw [signature_pending, drives_onDrive]
    split_ifs
    · exact discard_idle _
    · rfl
  unfold dev_reset
  dsimp only
  split_ifs at hall ⊢ <;> exact hall

theorem both (ch i : Fin 2) (h : i ≠ ch) : i = 1 - ch := by
  revert ch i
  decide

theorem posted_good (ch : Fin 2) (h : Good host b) : Good host (posted ch b) := by
  unfold posted Board.onTf
  refine h.onDrive fun r hr => ?_
  have hwaits := h _ r hr
  exact ⟨hwaits.1, hwaits.2.onTf rfl⟩

theorem diagnostics_idle (b : Board M) : Idle (driveDiagnostics host b) := by
  intro i
  unfold driveDiagnostics
  dsimp only
  rw [pending_onDrive 0 i rfl, posted_pending, dev_reset_pending]
  split_ifs with hi
  · rfl
  · have hzero : i = 0 := both 1 i hi
    rw [posted_pending, dev_reset_pending, if_pos hzero]

theorem clear_idle (ch : Fin 2) (b : Board M) :
    Idle ((posted (1 - ch) (dev_reset host (1 - ch)
      (posted ch (dev_reset host ch (dev_reset host ch b))))).onDrive ch fun drive =>
        { drive with disk := { drive.disk with reset := true } }) := by
  intro i
  rw [pending_onDrive ch i rfl, posted_pending, dev_reset_pending]
  split_ifs with hi
  · rfl
  · have hch : i = ch := by
      have hother := both (1 - ch) i hi
      rwa [sub_sub_cancel] at hother
    rw [posted_pending, dev_reset_pending, if_pos hch]

theorem devctl_good (addr : BitVec 16) (val : BitVec 8) (h : Good host b) :
    Good host (ide_write_devctl host addr val b) := by
  have hstart : Good host { b with diag := false } := h
  unfold ide_write_devctl
  dsimp only
  split_ifs
  · exact h
  · exact h
  · exact posted_good _ hstart
  · exact posted_good _ hstart
  · exact posted_good _ (posted_good _ hstart)
  · exact (clear_idle b.cur_dev { b with diag := false }).good
  · exact h

/-! ## Steps -/

/-- A step that leaves a request without its command: a transfer to a bus master that the board
does not have is asked for, the guest reads all of the buffer while the drive still looks for the
data, or a reset ends while a request is there. -/
def Strands (b : Board M) : Op M → Prop
  | .ide_writeb addr val =>
    (addr = 7 ∧ (val = WIN_READ_DMA ∨ val = WIN_READ_DMA_ALT) ∧ b.carries = false ∧
      b.typeIs b.cur_dev .IDE_HDD = true ∧ busy (b.tf b.cur_dev) = false ∧
      outOfRange (b.drives b.cur_dev).disk.last (b.drives b.cur_dev).disk.ide = false) ∨
    (addr = 6 ∧ b.cur_dev ≠ (if val.getLsbD 4 then 1 else 0) ∧
      (∃ d, (b.drives d).disk.reset = true) ∧ ¬Idle b)
  | .ide_read_data =>
    (b.drives b.cur_dev).pending.isSome ∧ (b.tf b.cur_dev).pos + 2 ≥ 512
  | .ide_board_callback => ¬Idle b
  | _ => False

theorem select_good (val : BitVec 8) (h : Good host b)
    (hfine : ¬Strands b (.ide_writeb 6 val)) : Good host (selectDrive host val b) := by
  have hclear : b.cur_dev ≠ (if val.getLsbD 4 then 1 else 0) →
      (∃ d, (b.drives d).disk.reset = true) → Idle b := fun hother hreset =>
    by_contra fun hidle => hfine (Or.inr ⟨rfl, hother, hreset, hidle⟩)
  unfold selectDrive
  generalize (if val.getLsbD 4 then 1 else 0 : Fin 2) = ch at hclear ⊢
  dsimp only
  by_cases hother : b.cur_dev ≠ ch
  · rw [if_pos hother]
    by_cases hreset : ((b.drives ch).disk.reset || (b.drives (1 - ch)).disk.reset) = true
    · have hidle := hclear hother ((Bool.or_eq_true_iff.mp hreset).elim (⟨ch, ·⟩) (⟨1 - ch, ·⟩))
      rw [if_pos hreset]
      refine Idle.good fun i => ?_
      rw [registers_pending, registers_pending]
      exact hidle i
    · rw [if_neg hreset]
      exact heads_good (b := { b with
        cur_dev := ch, rest := host.irq_update (host.select ch b.rest) }) val ch h
  · rw [if_neg hother]
    exact heads_good val ch h

theorem ready_pending (j i : Fin 2) (f : Tf → Tf) :
    (((b.onTf j f).onDrive j fun drive =>
      { drive with disk := { drive.disk with reset := false } }).drives i).pending =
      (b.drives i).pending := by
  unfold Board.onTf
  rw [pending_onDrive j i rfl, pending_onDrive _ i rfl]

theorem board_callback_idle (h : Idle b) : Idle (ide_board_callback host b) := by
  intro i
  unfold ide_board_callback
  dsimp only
  split_ifs <;> exact (ready_pending 0 i _).trans ((ready_pending 1 i _).trans (h i))

/-! ## Commands -/

/-- A drive that waits takes no command. -/
theorem Good.taken (h : Good host b) {val : BitVec 8} (htaken : refuses val b = false) :
    (b.drives b.cur_dev).pending = none := by
  cases hr : (b.drives b.cur_dev).pending with
  | none => rfl
  | some r =>
    obtain ⟨hreal, hwaits⟩ := h _ r hr
    have hbusy : busy (b.tf b.cur_dev) = true := by
      unfold Board.tf
      rw [home_of_real hreal]
      exact busy_waits hwaits
    have hatapi : b.typeIs b.cur_dev .IDE_ATAPI = false := by
      unfold Board.typeIs
      rw [hwaits.hdd, hreal]
      rfl
    have hprev : ((b.drives b.cur_dev).disk.ide.command != WIN_IDENTIFY) = true :=
      bne_iff_ne.mpr (hwaits.command_ne (show isRead WIN_IDENTIFY = false from rfl))
    unfold refuses at htaken
    dsimp only at htaken
    rw [hbusy, hatapi, hprev] at htaken
    simp only [Bool.not_false, Bool.or_true, Bool.and_self, Bool.true_eq_false] at htaken

/-- A read is taken only by a drive that is free. -/
theorem read_free {val : BitVec 8} (htaken : refuses val b = false) (hread : isRead val = true) :
    busy (b.tf b.cur_dev) = false := by
  have hne : ∀ other, isRead other = false → (val != other) = true := fun other hother =>
    bne_iff_ne.mpr fun heq => Bool.false_ne_true (hother.symm.trans (heq ▸ hread))
  unfold refuses at htaken
  dsimp only at htaken
  rw [hne WIN_SRST rfl, hne WIN_VERIFY rfl, hne WIN_READ_BUFFER rfl] at htaken
  simpa using htaken

/-- A read command waits, where the board can carry it out. -/
theorem start_current (drive : Drive) {carries : Bool} (hidle : drive.pending = none)
    (hinitial : drive.disk.do_initial_read = true) (hreads : isRead drive.disk.ide.command = true)
    (hbusy : drive.disk.ide.tf.atastat = BSY_STAT)
    (htransfer : drive.disk.ide.command = WIN_READ_DMA ∨
      drive.disk.ide.command = WIN_READ_DMA_ALT →
      outOfRange drive.disk.last drive.disk.ide = false → carries = true) {r : Request}
    (hr : (ide_async_read_start_current drive).pending = some r) :
    Waits host carries (ide_async_read_start_current drive) r := by
  unfold ide_async_read_start_current ide_async_read_start at hr ⊢
  dsimp only at hr ⊢
  split_ifs at hr ⊢ with hnot hcount
  · rw [hidle] at hr
    cases hr
  · rw [hidle] at hr
    cases hr
  · obtain ⟨hhdd, hrest⟩ := not_or.mp hnot
    obtain ⟨hblocks, hrange⟩ := not_or.mp hrest
    obtain rfl := Option.some.inj hr
    have hin := Bool.eq_false_iff.mpr hrange
    exact ⟨⟨rfl, hinitial, rfl, rfl, nofun⟩, not_not.mp hhdd, hreads,
      fun hdma => htransfer hdma hin, fun hmultiple hzero => hblocks ⟨hmultiple, hzero⟩, hin, hbusy⟩

theorem onDrive_self (ch : Fin 2) (f : Drive → Drive) :
    (b.onDrive ch f).drives ch = f (b.drives ch) := by
  rw [drives_onDrive, if_pos rfl]

theorem onTf_real (hreal : b.isShadow ch = false) (f : Tf → Tf) :
    b.onTf ch f = b.onDrive ch fun drive => drive.onTf f := by
  unfold Board.onTf
  rw [home_of_real hreal]

theorem onDrive_onDrive (ch : Fin 2) (f g : Drive → Drive) :
    (b.onDrive ch f).onDrive ch g = b.onDrive ch fun drive => g (f drive) := by
  have hself := @onDrive_self M b ch f
  unfold Board.onDrive at hself ⊢
  rw [hself, Function.update_idem]

/-- A drive with a read command, before its read is started. -/
def readReady (val : BitVec 8) (drive : Drive) : Drive :=
  let drive := drive.onIde fun ide =>
    if val = WIN_READ_MULTIPLE then { ide with blockcount := 0 } else ide
  let drive := drive.onTf fun tf => { tf with atastat := BSY_STAT }
  { drive with disk := { drive.disk with do_initial_read := true } }

theorem readReady_spec (val : BitVec 8) (drive : Drive) :
    (readReady val drive).pending = drive.pending ∧
    (readReady val drive).disk.do_initial_read = true ∧
    (readReady val drive).disk.ide.command = drive.disk.ide.command ∧
    (readReady val drive).disk.ide.tf.atastat = BSY_STAT ∧
    outOfRange (readReady val drive).disk.last (readReady val drive).disk.ide =
      outOfRange drive.disk.last drive.disk.ide := by
  unfold readReady Drive.onTf Drive.onIde
  dsimp only
  split_ifs <;> exact ⟨rfl, rfl, rfl, rfl, rfl⟩

theorem readCommand_eq (val prev : BitVec 8) (hreal : b.isShadow ch = false) :
    readCommand host val prev ch b =
      if val = WIN_READ ∧ prev = WIN_SETIDLE1 then
        (b.onDrive ch (readReady val)).run ch (ide_callback host b.force_ata3 b.bm ch)
      else b.onDrive ch fun drive => ide_async_read_start_current (readReady val drive) := by
  unfold readCommand
  dsimp only
  rw [onTf_real (b := b.onDrive ch _) hreal, onDrive_onDrive, onDrive_onDrive, onDrive_onDrive]
  rfl

theorem read_command_good {val prev : BitVec 8} (h : Good host b) (hreal : b.isShadow ch = false)
    (hidle : (b.drives ch).pending = none) (hcommand : (b.drives ch).disk.ide.command = val)
    (hread : isRead val = true)
    (htransfer : val = WIN_READ_DMA ∨ val = WIN_READ_DMA_ALT →
      outOfRange (b.drives ch).disk.last (b.drives ch).disk.ide = false → b.carries = true) :
    Good host (readCommand host val prev ch b) := by
  obtain ⟨hpending, hinitial, hsame, hbusy, hrange⟩ := readReady_spec val (b.drives ch)
  rw [hidle] at hpending
  rw [hcommand] at hsame
  rw [readCommand_eq val prev hreal]
  split_ifs
  · have hready := (Spares.onDrive hidle hpending).good h
    refine hready.runIdle (callback_idle ?_)
    rw [onDrive_self]
    exact hpending
  · refine h.onDrive fun r hr => ⟨hreal, ?_⟩
    refine start_current _ hpending hinitial ?_ hbusy ?_ hr
    · rw [hsame]
      exact hread
    · rw [hsame, hrange]
      exact htransfer

/-- The board with the command in its register. -/
def taken (val : BitVec 8) (b : Board M) : Board M :=
  (b.onDrive b.cur_dev fun drive => drive.onIde fun ide => { ide with command := val }).onTf
    b.cur_dev fun tf => { tf with error := 0 }

/-- A command in its register, with the error that is cleared. -/
def takes (val : BitVec 8) (drive : Drive) : Drive :=
  (drive.onIde fun ide => { ide with command := val }).onTf fun tf => { tf with error := 0 }

theorem taken_real (val : BitVec 8) (hreal : b.isShadow b.cur_dev = false) :
    taken val b = b.onDrive b.cur_dev (takes val) := by
  unfold taken
  rw [onTf_real (b := b.onDrive b.cur_dev _) hreal, onDrive_onDrive]
  rfl

/-- A command of a real drive, once it is taken. -/
theorem started_good {val prev : BitVec 8} (h : Good host b) (hreal : b.isShadow ch = false)
    (hidle : (b.drives ch).pending = none) (hread : isRead val = true)
    (htransfer : val = WIN_READ_DMA ∨ val = WIN_READ_DMA_ALT →
      outOfRange (b.drives ch).disk.last (b.drives ch).disk.ide = false → b.carries = true) :
    Good host (readCommand host val prev ch (b.onDrive ch (takes val))) := by
  have hready : Good host (b.onDrive ch (takes val)) := (Spares.onDrive hidle hidle).good h
  refine read_command_good hready hreal ?_ ?_ hread ?_
  · rw [onDrive_self]
    exact hidle
  · rw [onDrive_self]
    rfl
  · rw [onDrive_self]
    exact htransfer

theorem command_good (val : BitVec 8) (h : Good host b)
    (hfine : ¬Strands b (.ide_writeb 7 val)) : Good host (writeCommand host val b) := by
  unfold writeCommand
  dsimp only
  cases htaken : refuses val b with
  | true => exact h
  | false =>
    have hidle := h.taken htaken
    rw [if_neg Bool.false_ne_true]
    by_cases hdiag : val = WIN_DRIVE_DIAGNOSTICS
    · split_ifs
      · exact h
      · exact (diagnostics_idle _).good
    · have hne : (val != WIN_DRIVE_DIAGNOSTICS) = true := bne_iff_ne.mpr hdiag
      rw [hne, Bool.and_true, if_neg hdiag]
      cases hreal : b.isShadow b.cur_dev with
      | true =>
        rw [Bool.or_true, if_pos rfl]
        exact h
      | false =>
        let b' : Board M := { b with rest := host.irq_lower b.cur_dev b.rest }
        have heq := @taken_real M b' val hreal
        unfold taken at heq
        have hgood : Good host b' := h
        split_ifs with hnone hread
        · exact h
        · rw [heq]
          rw [heq] at hread
          have hread' := Bool.and_eq_true_iff.mp hread
          refine started_good (b := b') hgood hreal hidle hread'.1 fun hdma hin => ?_
          by_contra hno
          refine hfine (Or.inl ⟨rfl, hdma, Bool.eq_false_iff.mpr hno, ?_,
            read_free htaken hread'.1, hin⟩)
          have htype := hread'.2
          unfold Board.typeIs at htype ⊢
          rw [onDrive_self] at htype
          exact htype
        · rw [heq]
          have hready : Good host (b'.onDrive b'.cur_dev (takes val)) :=
            (Spares.onDrive hidle hidle).good hgood
          refine hready.runIdle ?_
          dsimp only
          rw [onDrive_self]
          exact hidle

/-! ## Any step -/

theorem write_good (val : BitVec 16) (d : Fin 2) (h : Good host b) :
    Good host (onData (ide_write_data host b.force_ata3 b.bm val d) b) := by
  unfold onData
  cases hreal : b.isShadow b.cur_dev with
  | true => exact h
  | false =>
    rw [if_neg Bool.false_ne_true]
    cases hpending : (b.drives b.cur_dev).pending with
    | none => exact h.runIdle (write_data_idle val hpending)
    | some r =>
      have hwaits : Waits host (!b.force_ata3 && b.bm) (b.drives b.cur_dev) r :=
        (h _ r hpending).2
      have hafter : Waits host (!b.force_ata3 && b.bm)
          (ide_write_data host b.force_ata3 b.bm val d (b.drives b.cur_dev) b.rest).1 r :=
        write_data_waits val hwaits
      refine h.run fun r' hr' => ⟨hreal, ?_⟩
      rw [hafter.pending] at hr'
      obtain rfl := Option.some.inj hr'
      exact hafter

theorem read_good (h : Good host b) (hfine : ¬Strands b .ide_read_data) :
    Good host (step host b .ide_read_data) := by
  unfold step onData
  dsimp only
  cases hreal : b.isShadow b.cur_dev with
  | true => exact h
  | false =>
    rw [if_neg Bool.false_ne_true]
    cases hpending : (b.drives b.cur_dev).pending with
    | none => exact h.runIdle (read_data_idle hpending)
    | some r =>
      have hwaits : Waits host (!b.force_ata3 && b.bm) (b.drives b.cur_dev) r :=
        (h _ r hpending).2
      have hpos : ¬(b.drives b.cur_dev).disk.ide.tf.pos + 2 ≥ 512 := fun hfull => by
        refine hfine ⟨?_, ?_⟩
        · rw [hpending]
          rfl
        · unfold Board.tf
          rw [home_of_real hreal]
          exact hfull
      have hafter : Waits host (!b.force_ata3 && b.bm)
          ((b.drives b.cur_dev).onTf fun tf => { tf with pos := tf.pos + 2 }) r :=
        hwaits.onTf (by rw [← hwaits.busy])
      have heq := @read_data_waits M host (b.drives b.cur_dev) r b.rest b.cur_dev b.force_ata3 b.bm
        (!b.force_ata3 && b.bm) hwaits hpos
      rw [← heq] at hafter
      refine h.run fun r' hr' => ⟨hreal, ?_⟩
      rw [hafter.pending] at hr'
      obtain rfl := Option.some.inj hr'
      exact hafter

theorem callback_good (d : Fin 2) (h : Good host b) :
    Good host (step host b (.ide_callback d)) := by
  unfold step
  dsimp only
  split_ifs
  · exact h
  · cases hpending : (b.drives d).pending with
    | none => exact h.runIdle (callback_idle hpending)
    | some r => exact h.runIdle (callback_takes (h d r hpending).2)

theorem worker_good (d : Fin 2) (h : Good host b) : Good host (step host b (.worker d)) := by
  refine Good.onDrive h fun r' hr' => ?_
  cases hpending : (b.drives d).pending with
  | none =>
    unfold ide_async_read_worker at hr'
    rw [hpending] at hr'
    rw [hpending] at hr'
    cases hr'
  | some r =>
    obtain ⟨hreal, hwaits⟩ := h d r hpending
    obtain ⟨r'', hr'', hafter⟩ := hwaits.worker
    rw [hr''] at hr'
    obtain rfl := Option.some.inj hr'
    exact ⟨hreal, hafter⟩

theorem writeb_good (addr : BitVec 3) (val : BitVec 8) (h : Good host b)
    (hfine : ¬Strands b (.ide_writeb addr val)) :
    Good host (step host b (.ide_writeb addr val)) := by
  unfold step ide_writeb
  dsimp only
  by_cases hdata : addr = 0
  · rw [if_pos hdata]
    exact write_good _ _ h
  · rw [if_neg hdata]
    by_cases hhead : addr = 6
    · rw [if_pos hhead]
      subst hhead
      exact select_good val h hfine
    · rw [if_neg hhead]
      by_cases hcommand : addr = 7
      · rw [if_pos hcommand]
        subst hcommand
        exact command_good val h hfine
      · rw [if_neg hcommand]
        have hfirst := (register_spares addr val b.cur_dev h).good h
        exact (register_spares addr val _ hfirst).good hfirst

/-- A request stays with its command in any step that does not strand it. -/
theorem step_good {op : Op M} (h : Good host b) (hfine : ¬Strands b op) :
    Good host (step host b op) := by
  cases op with
  | ide_writeb addr val => exact writeb_good addr val h hfine
  | ide_write_data val => exact write_good val _ h
  | ide_read_data => exact read_good h hfine
  | ide_write_devctl addr val => exact devctl_good addr val h
  | ide_callback d => exact callback_good d h
  | ide_board_callback => exact (board_callback_idle (not_not.mp hfine)).good
  | worker d => exact worker_good d h
  | other f => exact h

/-! ## Runs -/

variable (host) in
/-- No step of the run strands a request. -/
def Clear (b : Board M) : List (Op M) → Prop
  | [] => True
  | op :: ops => ¬Strands b op ∧ Clear (step host b op) ops

theorem run_good {ops : List (Op M)} (h : Good host b) (hclear : Clear host b ops) :
    Good host (ops.foldl (step host) b) := by
  induction ops generalizing b with
  | nil => exact h
  | cons op ops ih => exact ih (step_good h hclear.1) hclear.2

variable (host) in
/-- What the guest gets is what reads in the callbacks alone would give it, and a request is
pending only for the read command in progress. -/
theorem asynchronous_reads_are_invisible (ops : List (Op M)) (hidle : Idle b)
    (hclear : Clear host b ops) (d : Fin 2) :
    (∀ r, ((ops.foldl (step host) b).drives d).pending = some r →
      Waits host (ops.foldl (step host) b).carries ((ops.foldl (step host) b).drives d) r) ∧
    ∃ before,
      ide_callback host (ops.foldl (step host) b).force_ata3 (ops.foldl (step host) b).bm d
        ((ops.foldl (step host) b).drives d) (ops.foldl (step host) b).rest =
      ide_callback host (ops.foldl (step host) b).force_ata3 (ops.foldl (step host) b).bm d
        (synchronous ((ops.foldl (step host) b).drives d) before)
        (ops.foldl (step host) b).rest := by
  have hgood := run_good hidle.good hclear
  generalize ops.foldl (step host) b = now at hgood ⊢
  refine ⟨fun r hr => (hgood d r hr).2, ?_⟩
  cases hpending : (now.drives d).pending with
  | none =>
    refine ⟨(now.drives d).disk.sector_buffer, ?_⟩
    unfold synchronous
    rw [← hpending]
  | some r => exact callback_waits (hgood d r hpending).2

end

/-! ## A board with one disk -/

/-- Each sector of the image has its own number in all of its bytes. -/
def numbered : Image := fun i _ => BitVec.ofNat 8 i

/-- A host that reads the sectors that are asked for, and does nothing else. -/
def plainHost : Host Unit where
  hdd_image_read image sector count before :=
    (fun i => if i < count then image (sector.toNat + i) else before i, true)
  dma := none
  irq_raise _ rest := rest
  irq_lower _ rest := rest
  select _ rest := rest
  irq_update rest := rest
  features _ _ rest := rest
  stop _ rest := rest
  atapi_is_early _ _ := false
  command _ _ disk rest := (disk, rest)
  callback _ disk rest := (disk, rest)
  packet_read _ disk rest := (0, disk, rest)
  packet_write _ _ disk rest := (disk, rest)

/-- A disk of 256 sectors, with nothing done yet. -/
def freshDisk (type : DriveType) : Disk where
  ide :=
    { type := type
      command := 0
      tf := ⟨1, 0, 0x50, 0, 0, 0, true, 0⟩
      lba_addr := 0
      cfg_spt := 17
      cfg_hpc := 4
      params_specified := false
      blocksize := 0
      blockcount := 0
      sector_pos := 0 }
  do_initial_read := false
  reset := false
  last := 255
  speed_preset := 0
  buffer _ := 0
  sector_buffer _ _ := 0
  image := numbered

def freshBoard (bm : Bool) : Board Unit where
  drives d := ⟨freshDisk (if d = 0 then .IDE_HDD else .IDE_NONE), none⟩
  shadow := true
  cur_dev := 0
  devctl := 0
  diag := false
  force_ata3 := false
  bm := bm
  rest := ()

/-- The worker reads sector 5 before the callback comes. -/
theorem a_read_of_sector_five :
    ∃ before, ide_callback plainHost false false 0
        (([.ide_writeb 3 5, .ide_writeb 7 WIN_READ, .worker 0].foldl (step plainHost)
          (freshBoard false)).drives 0) () =
      ide_callback plainHost false false 0
        (synchronous (([.ide_writeb 3 5, .ide_writeb 7 WIN_READ, .worker 0].foldl (step plainHost)
          (freshBoard false)).drives 0) before) () := by
  have hregister : ¬Strands (freshBoard false) (.ide_writeb 3 5) := by
    rintro (⟨haddr, -⟩ | ⟨haddr, -⟩)
    · exact absurd haddr (by decide)
    · exact absurd haddr (by decide)
  have hcommand : ¬Strands (step plainHost (freshBoard false) (.ide_writeb 3 5))
      (.ide_writeb 7 WIN_READ) := by
    rintro (⟨-, hdma, -⟩ | ⟨haddr, -⟩)
    · exact absurd hdma (by decide)
    · exact absurd haddr (by decide)
  exact (asynchronous_reads_are_invisible plainHost (b := freshBoard false)
    [.ide_writeb 3 5, .ide_writeb 7 WIN_READ, .worker 0] (fun _ => rfl)
    ⟨hregister, hcommand, not_false, trivial⟩ 0).2

/-- Without a bus master, READ DMA leaves its request behind, and the next READ gets the
sector of it. -/
theorem a_refused_transfer_answers_the_next_read :
    let refused := [.ide_writeb 7 WIN_READ_DMA, .worker 0, .ide_callback 0].foldl (step plainHost)
      (freshBoard false)
    let answered := [.ide_writeb 3 5, .ide_writeb 7 WIN_READ, .worker 0, .ide_callback 0].foldl
      (step plainHost) refused
    (refused.drives 0).pending = some ⟨0, 1, some true⟩ ∧ busy (refused.tf 0) = false ∧
      ide_get_sector (answered.drives 0).disk.ide = 5 ∧
      (answered.drives 0).disk.buffer 0 = numbered 0 0 ∧ numbered 0 0 ≠ numbered 5 0 := by
  decide +kernel

end blumach.hdc_ide
