-- The byte queue of `utils/fifo.c`: a ring with its first place, the place behind its
-- last one, and flags for empty, full, ready and overrun. Each access comes plain or
-- with events, and with a tag or without one.
import BluMach.RingQueue
import Mathlib.Data.BitVec
import Mathlib.Logic.Function.Basic

namespace blumach.fifo

open ring_queue

/-! ## The data -/

/-- The handlers `d_empty_evt` and so on are here for whether they are set. -/
structure fifo_t where
  start : Nat
  end_ : Nat
  trigger_len : Nat
  len : Nat
  empty : Bool
  overrun : Bool
  full : Bool
  ready : Bool
  d_empty : Bool
  d_overrun : Bool
  d_full : Bool
  d_ready : Bool
  d_empty_evt : Bool
  d_overrun_evt : Bool
  d_full_evt : Bool
  d_ready_evt : Bool
  tag : Nat → BitVec 8
  buf : Nat → BitVec 8

/-- A call of a handler. -/
inductive Evt where
  | empty | overrun | full | ready
deriving DecidableEq

def fifo_get_count (fifo : fifo_t) : Nat :=
  if fifo.end_ = fifo.start then if fifo.full then fifo.len else 0
  else if fifo.end_ > fifo.start then fifo.end_ - fifo.start
  else fifo.len + fifo.end_ - fifo.start

def fifo_reset (fifo : fifo_t) : fifo_t :=
  { fifo with
    start := 0, end_ := 0, full := false, overrun := false, empty := true, ready := false }

/-- A result of `none` is the fatal error for another length. -/
def fifo_init (len : Nat) : Option fifo_t :=
  if len = 64 ∨ len = 16 then
    some (fifo_reset
      { start := 0, end_ := 0, trigger_len := 0, len
        empty := false, overrun := false, full := false, ready := false
        d_empty := false, d_overrun := false, d_full := false, d_ready := false
        d_empty_evt := false, d_overrun_evt := false, d_full_evt := false, d_ready_evt := false
        tag := fun _ => 0, buf := fun _ => 0 })
  else none

def fifo_set_trigger_len (trigger_len : Nat) (fifo : fifo_t) : fifo_t :=
  { fifo with trigger_len }

/-- The four calls that set a handler. -/
def fifo_set_evts (empty overrun full ready : Bool) (fifo : fifo_t) : fifo_t :=
  { fifo with
    d_empty_evt := empty
    d_overrun_evt := overrun
    d_full_evt := full
    d_ready_evt := ready }

/-! ## Writes -/

/-- The stores of a write; without a tag the old one stays. -/
def put (tag : Option (BitVec 8)) (val : BitVec 8) (fifo : fifo_t) : fifo_t :=
  { fifo with
    buf := Function.update fifo.buf fifo.end_ val
    tag := match tag with
      | some t => Function.update fifo.tag fifo.end_ t
      | none => fifo.tag
    end_ := (fifo.end_ + 1) % fifo.len }

def unchanged (fifo : fifo_t) : fifo_t :=
  { fifo with d_full := false, d_empty := false, d_ready := false, d_overrun := false }

def markFull (fifo : fifo_t) : fifo_t :=
  if fifo.end_ = fifo.start then { fifo with full := true } else fifo

def markReady (fifo : fifo_t) : fifo_t :=
  if fifo_get_count fifo ≥ fifo.trigger_len then { fifo with ready := true } else fifo

/-- A write without events. -/
def write (tag : Option (BitVec 8)) (val : BitVec 8) (fifo : fifo_t) : fifo_t :=
  let fifo := unchanged fifo
  if fifo.full then { fifo with overrun := true }
  else markReady { markFull (put tag val fifo) with empty := false }

def markFullEvt (fifo : fifo_t) : fifo_t :=
  if fifo.end_ = fifo.start then { fifo with d_full := !fifo.full, full := true } else fifo

def markReadyEvt (fifo : fifo_t) : fifo_t :=
  if fifo_get_count fifo ≥ fifo.trigger_len then
    { fifo with d_ready := !fifo.ready, ready := true }
  else fifo

def call (changed handler : Bool) (e : Evt) : List Evt := if changed && handler then [e] else []

/-- A write with events, and the handlers that it calls. -/
def writeEvt (tag : Option (BitVec 8)) (val : BitVec 8) (fifo : fifo_t) : fifo_t × List Evt :=
  let fifo := unchanged fifo
  if fifo.full then
    let fifo := { fifo with d_overrun := !fifo.overrun, overrun := true }
    (fifo, call fifo.d_overrun fifo.d_overrun_evt .overrun)
  else
    let fifo := markFullEvt (put tag val fifo)
    let fifo := markReadyEvt { fifo with d_empty := fifo.empty, empty := false }
    (fifo, call fifo.d_full fifo.d_full_evt .full ++ call fifo.d_empty fifo.d_empty_evt .empty ++
      call fifo.d_ready fifo.d_ready_evt .ready)

def fifo_write (val : BitVec 8) : fifo_t → fifo_t := write none val

def fifo_write_tagged (tag val : BitVec 8) : fifo_t → fifo_t := write (some tag) val

def fifo_write_evt (val : BitVec 8) : fifo_t → fifo_t × List Evt := writeEvt none val

def fifo_write_evt_tagged (tag val : BitVec 8) : fifo_t → fifo_t × List Evt :=
  writeEvt (some tag) val

/-! ## Reads -/

/-- What a read returns, and what it stores through its `tag`. -/
structure Got where
  ret : BitVec 8
  tag : BitVec 8

def take (fifo : fifo_t) : fifo_t := { fifo with start := (fifo.start + 1) % fifo.len }

def oldest (fifo : fifo_t) : Got := ⟨fifo.buf fifo.start, fifo.tag fifo.start⟩

/-- The flags after a read without events: the end of the queue is looked for below the
trigger only. -/
def lower (count : Nat) (fifo : fifo_t) : fifo_t :=
  if count < fifo.trigger_len then
    let fifo := { fifo with ready := false }
    if count = 0 then { fifo with empty := true } else fifo
  else fifo

/-- A read without events. -/
def read (fifo : fifo_t) : fifo_t × Got :=
  if fifo.empty then (fifo, ⟨0, 0⟩)
  else
    let got := oldest fifo
    let fifo := { take fifo with full := false }
    (lower (fifo_get_count fifo) fifo, got)

/-- The flags after a read with events. -/
def lowerEvt (count : Nat) (fifo : fifo_t) : fifo_t :=
  let fifo :=
    if count < fifo.trigger_len then { fifo with d_ready := fifo.ready, ready := false } else fifo
  if count = 0 then { fifo with d_empty := !fifo.empty, empty := true } else fifo

/-- A read with events, and the handlers that it calls. -/
def readEvt (fifo : fifo_t) : fifo_t × Got × List Evt :=
  let fifo := { fifo with d_full := false, d_empty := false, d_ready := false }
  if fifo.empty then (fifo, ⟨0, 0⟩, [])
  else
    let got := oldest fifo
    let fifo := { take fifo with d_full := fifo.full, full := false }
    let fifo := lowerEvt (fifo_get_count fifo) fifo
    (fifo, got, call fifo.d_full fifo.d_full_evt .full ++ call fifo.d_ready
      fifo.d_ready_evt .ready ++ call fifo.d_empty fifo.d_empty_evt .empty)

def fifo_read (fifo : fifo_t) : fifo_t × BitVec 8 :=
  let (fifo, got) := read fifo
  (fifo, got.ret)

def fifo_read_tagged (fifo : fifo_t) : fifo_t × Got := read fifo

def fifo_read_evt (fifo : fifo_t) : fifo_t × BitVec 8 × List Evt :=
  let (fifo, got, evts) := readEvt fifo
  (fifo, got.ret, evts)

def fifo_read_evt_tagged (fifo : fifo_t) : fifo_t × Got × List Evt := readEvt fifo

/-! ## Runs -/

inductive Op where
  | write (val : BitVec 8)
  | write_tagged (tag val : BitVec 8)
  | write_evt (val : BitVec 8)
  | write_evt_tagged (tag val : BitVec 8)
  | read
  | read_tagged
  | read_evt
  | read_evt_tagged

/-- What the caller of a read sees: the byte, and the tag of a tagged read. -/
abbrev Seen := BitVec 8 × Option (BitVec 8)

def step (fifo : fifo_t) : Op → fifo_t × Option Seen
  | .write val => (fifo_write val fifo, none)
  | .write_tagged tag val => (fifo_write_tagged tag val fifo, none)
  | .write_evt val => ((fifo_write_evt val fifo).1, none)
  | .write_evt_tagged tag val => ((fifo_write_evt_tagged tag val fifo).1, none)
  | .read => ((fifo_read fifo).1, some ((fifo_read fifo).2, none))
  | .read_tagged =>
    ((fifo_read_tagged fifo).1,
      some ((fifo_read_tagged fifo).2.ret, some (fifo_read_tagged fifo).2.tag))
  | .read_evt => ((fifo_read_evt fifo).1, some ((fifo_read_evt fifo).2.1, none))
  | .read_evt_tagged =>
    ((fifo_read_evt_tagged fifo).1,
      some ((fifo_read_evt_tagged fifo).2.1.ret, some (fifo_read_evt_tagged fifo).2.1.tag))

/-- The same access without events, or with them. -/
def Op.twin : Op → Op
  | .write val => .write_evt val
  | .write_tagged tag val => .write_evt_tagged tag val
  | .write_evt val => .write val
  | .write_evt_tagged tag val => .write_tagged tag val
  | .read => .read_evt
  | .read_tagged => .read_evt_tagged
  | .read_evt => .read
  | .read_evt_tagged => .read_tagged

def Op.isRead : Op → Bool
  | .read | .read_tagged | .read_evt | .read_evt_tagged => true
  | _ => false

/-! ## A bounded queue -/

/-- The bytes that wait, the oldest first, each with the tag that came with it. -/
structure Queue where
  items : List (BitVec 8 × Option (BitVec 8))
  /-- A byte was dropped. -/
  overrun : Bool
  /-- A byte was accepted. -/
  used : Bool

def Queue.write (len : Nat) (tag : Option (BitVec 8)) (val : BitVec 8) (q : Queue) : Queue :=
  if q.items.length = len then { q with overrun := true }
  else { q with items := q.items ++ [(val, tag)], used := true }

/-- The queue after an access, and the item that a read takes. -/
def Queue.step (len : Nat) (q : Queue) : Op → Queue × Option (BitVec 8 × Option (BitVec 8))
  | .write val | .write_evt val => (q.write len none val, none)
  | .write_tagged tag val | .write_evt_tagged tag val => (q.write len (some tag) val, none)
  | .read | .read_tagged | .read_evt | .read_evt_tagged =>
    ({ q with items := q.items.tail }, q.items.head?)

/-- The flags say what the queue is. -/
structure Shows (fifo : fifo_t) (q : Queue) : Prop where
  count : fifo_get_count fifo = q.items.length
  empty : fifo.empty = true ↔ q.items.length = 0
  full : fifo.full = true ↔ q.items.length = fifo.len
  ready : fifo.ready = true ↔ q.used = true ∧ fifo.trigger_len ≤ q.items.length
  overrun : fifo.overrun = q.overrun

/-- A read sees the oldest item, or zeroes. A tag that was never written is free. -/
def Sees (seen : Seen) : Option (BitVec 8 × Option (BitVec 8)) → Prop
  | none => seen.1 = 0 ∧ ∀ t, seen.2 = some t → t = 0
  | some item => seen.1 = item.1 ∧ ∀ t w, seen.2 = some t → item.2 = some w → t = w

/-- The state but for what `fifo_get_d_empty` and the others report. -/
def settled (fifo : fifo_t) : fifo_t :=
  { fifo with d_empty := false, d_overrun := false, d_full := false, d_ready := false }

/-- An access does what it should: a read sees what the queue gives, and changes nothing
when there is nothing, and the access with or without events leaves the same state. -/
structure StepRight (fifo : fifo_t) (q : Queue) (op : Op) : Prop where
  sees : ∀ seen, (step fifo op).2 = some seen → Sees seen (q.step fifo.len op).2
  idle : op.isRead = true → q.items = [] → settled (step fifo op).1 = settled fifo
  twin : settled (step fifo op).1 = settled (step fifo op.twin).1

/-- The ring is a bounded queue all along a run. -/
def Behaves (fifo : fifo_t) (q : Queue) : List Op → Prop
  | [] => Shows fifo q
  | op :: ops =>
    Shows fifo q ∧ StepRight fifo q op ∧ Behaves (step fifo op).1 (q.step fifo.len op).1 ops

/-- A read that takes the last byte, with no trigger set. -/
def LastUntriggered (fifo : fifo_t) (op : Op) : Prop :=
  op.isRead = true ∧ fifo.trigger_len = 0 ∧ fifo_get_count fifo = 1

/-- No access of a run is such a read. -/
def Avoids (fifo : fifo_t) : List Op → Prop
  | [] => True
  | op :: ops => ¬LastUntriggered fifo op ∧ Avoids (step fifo op).1 ops

instance (fifo : fifo_t) (op : Op) : Decidable (LastUntriggered fifo op) :=
  inferInstanceAs (Decidable (_ ∧ _ ∧ _))

instance decidableAvoids : (ops : List Op) → (fifo : fifo_t) → Decidable (Avoids fifo ops)
  | [], _ => isTrue trivial
  | op :: ops, fifo =>
    have := decidableAvoids ops (step fifo op).1
    inferInstanceAs (Decidable (_ ∧ _))

/-! ## The ring holds the queue -/

/-- A place of the ring holds an item. -/
def Stored (fifo : fifo_t) (k : Nat) (item : BitVec 8 × Option (BitVec 8)) : Prop :=
  fifo.buf k = item.1 ∧ ∀ w, item.2 = some w → fifo.tag k = w

structure Holds (fifo : fifo_t) (q : Queue) : Prop where
  start_lt : fifo.start < fifo.len
  end_eq : fifo.end_ = slot fifo.len fifo.start q.items.length
  le : q.items.length ≤ fifo.len
  stored : ∀ i (h : i < q.items.length), Stored fifo (slot fifo.len fifo.start i) (q.items[i])
  empty : fifo.empty = true ↔ q.items.length = 0
  full : fifo.full = true ↔ q.items.length = fifo.len
  ready : fifo.ready = true ↔ q.used = true ∧ fifo.trigger_len ≤ q.items.length
  used : q.items ≠ [] → q.used = true
  overrun : fifo.overrun = q.overrun

theorem count_eq {fifo : fifo_t} {n : Nat} (hs : fifo.start < fifo.len)
    (he : fifo.end_ = slot fifo.len fifo.start n) (hn : n ≤ fifo.len)
    (hf : fifo.full = true ↔ n = fifo.len) : fifo_get_count fifo = n := by
  unfold fifo_get_count
  have hfull : (if fifo.full = true then fifo.len else 0) =
      if n = fifo.len then fifo.len else 0 := by
    simp only [hf]
  rw [hfull]
  rcases slot_cases hs hn with ⟨h1, h2⟩ | ⟨h1, h2⟩ <;> split_ifs <;> omega

theorem Holds.count {fifo : fifo_t} {q : Queue} (h : Holds fifo q) :
    fifo_get_count fifo = q.items.length :=
  count_eq h.start_lt h.end_eq h.le h.full

theorem Holds.shows {fifo : fifo_t} {q : Queue} (h : Holds fifo q) : Shows fifo q :=
  ⟨h.count, h.empty, h.full, h.ready, h.overrun⟩

/-- The ring is what is left when the reports are cleared. -/
theorem Holds.of_settled {fifo fifo' : fifo_t} {q : Queue} (h : Holds fifo q)
    (hs : settled fifo' = settled fifo) : Holds fifo' q := by
  unfold settled at hs
  cases fifo
  cases fifo'
  simp only [fifo_t.mk.injEq] at hs
  obtain ⟨rfl, rfl, rfl, rfl, rfl, rfl, rfl, rfl, -, -, -, -, rfl, rfl, rfl, rfl, rfl, rfl⟩ := hs
  obtain ⟨h1, h2, h3, h4, h5, h6, h7, h8, h9⟩ := h
  exact ⟨h1, h2, h3, h4, h5, h6, h7, h8, h9⟩

/-! ## Writes -/

theorem markFull_eq (fifo : fifo_t) :
    markFull fifo = { fifo with full := fifo.full || decide (fifo.end_ = fifo.start) } := by
  unfold markFull
  by_cases h : fifo.end_ = fifo.start <;> simp [h]

theorem markReady_eq (fifo : fifo_t) : markReady fifo =
    { fifo with ready := fifo.ready || decide (fifo_get_count fifo ≥ fifo.trigger_len) } := by
  unfold markReady
  by_cases h : fifo_get_count fifo ≥ fifo.trigger_len <;> simp [h]

theorem markFullEvt_settled {fifo fifo' : fifo_t} (h : settled fifo = settled fifo') :
    settled (markFullEvt fifo) = settled (markFull fifo') := by
  simp only [settled, fifo_t.mk.injEq] at h
  unfold markFullEvt markFull
  rw [h.1, h.2.1]
  split_ifs <;> simp [settled, h]

theorem markReadyEvt_settled {fifo fifo' : fifo_t} (h : settled fifo = settled fifo') :
    settled (markReadyEvt fifo) = settled (markReady fifo') := by
  have hsettled : fifo_get_count (settled fifo) = fifo_get_count (settled fifo') :=
    congrArg fifo_get_count h
  have hcount : fifo_get_count fifo = fifo_get_count fifo' := hsettled
  simp only [settled, fifo_t.mk.injEq] at h
  unfold markReadyEvt markReady
  rw [hcount, h.2.2.1]
  split_ifs <;> simp [settled, h]

theorem writeEvt_settled (tag : Option (BitVec 8)) (val : BitVec 8) (fifo : fifo_t) :
    settled (writeEvt tag val fifo).1 = settled (write tag val fifo) := by
  unfold writeEvt write
  by_cases hf : (unchanged fifo).full = true
  · simp only [hf, if_true]
    rfl
  · simp only [hf, Bool.false_eq_true, if_false]
    apply markReadyEvt_settled
    have h := @markFullEvt_settled (put tag val (unchanged fifo)) _ rfl
    simp only [settled, fifo_t.mk.injEq] at h ⊢
    simp only [h, and_self]

theorem end_succ {fifo : fifo_t} {q : Queue} (h : Holds fifo q) :
    (fifo.end_ + 1) % fifo.len = slot fifo.len fifo.start (q.items.length + 1) := by
  rw [h.end_eq, slot, slot, Nat.mod_add_mod, Nat.add_assoc]

/-- An accepted byte. -/
theorem write_eq {fifo : fifo_t} {q : Queue} (tag : Option (BitVec 8)) (val : BitVec 8)
    (h : Holds fifo q) (hn : q.items.length < fifo.len) :
    write tag val fifo =
      { put tag val (unchanged fifo) with
        full := decide (q.items.length + 1 = fifo.len)
        empty := false
        ready := fifo.ready || decide (q.items.length + 1 ≥ fifo.trigger_len) } := by
  have hf : (unchanged fifo).full = false := by
    rw [← Bool.not_eq_true]
    intro hf
    have := h.full.mp hf
    omega
  have hround : (fifo.end_ + 1) % fifo.len = fifo.start ↔ q.items.length + 1 = fifo.len := by
    have hs := h.start_lt
    rw [end_succ h]
    rcases slot_cases hs (show q.items.length + 1 ≤ fifo.len from hn) with ⟨h1, h2⟩ | ⟨h1, h2⟩ <;>
      omega
  have hfull : markFull (put tag val (unchanged fifo)) =
      { put tag val (unchanged fifo) with full := decide (q.items.length + 1 = fifo.len) } := by
    have hf' : (put tag val (unchanged fifo)).full = false := hf
    rw [markFull_eq, hf', Bool.false_or]
    simp only [put, unchanged, hround]
  have hcount : fifo_get_count { put tag val (unchanged fifo) with
      full := decide (q.items.length + 1 = fifo.len), empty := false } = q.items.length + 1 :=
    count_eq h.start_lt (end_succ (h.of_settled rfl)) hn decide_eq_true_iff
  simp only [write, hf, Bool.false_eq_true, if_false]
  rw [markReady_eq, hfull, hcount]
  rfl

theorem write_holds {fifo : fifo_t} {q : Queue} (tag : Option (BitVec 8)) (val : BitVec 8)
    (h : Holds fifo q) : Holds (write tag val fifo) (q.write fifo.len tag val) := by
  by_cases hn : q.items.length = fifo.len
  · have hf : (unchanged fifo).full = true := h.full.mpr hn
    rw [write, if_pos hf, Queue.write, if_pos hn]
    exact ⟨h.start_lt, h.end_eq, h.le, h.stored, h.empty, h.full, h.ready, h.used, rfl⟩
  · have hlt : q.items.length < fifo.len := Nat.lt_of_le_of_ne h.le hn
    rw [write_eq tag val h hlt, Queue.write, if_neg hn]
    have hlen : (q.items ++ [(val, tag)]).length = q.items.length + 1 := by simp
    refine ⟨h.start_lt, ?_, ?_, fun i hi => ?_, ?_, ?_, ?_, fun _ => rfl, h.overrun⟩
    · rw [hlen]
      exact end_succ (h.of_settled rfl)
    · rw [hlen]
      exact hlt
    · by_cases hi' : i < q.items.length
      · -- The new byte goes to another place.
        have hne : slot fifo.len fifo.start i ≠ fifo.end_ := by
          rw [h.end_eq]
          exact slot_ne h.start_lt (Nat.lt_trans hi' hlt) hlt (Nat.ne_of_lt hi')
        obtain ⟨h1, h2⟩ := h.stored i hi'
        rw [List.getElem_append_left hi']
        refine ⟨?_, fun w hw => ?_⟩
        · exact (Function.update_of_ne hne _ _).trans h1
        · cases tag with
          | none => exact h2 w hw
          | some t => exact (Function.update_of_ne hne _ _).trans (h2 w hw)
      · rw [hlen] at hi
        obtain rfl : i = q.items.length := by omega
        have hend : slot fifo.len fifo.start q.items.length = fifo.end_ := h.end_eq.symm
        rw [List.getElem_concat_length rfl]
        refine ⟨?_, fun w hw => ?_⟩
        · simp [put, unchanged, hend]
        · obtain rfl : tag = some w := hw
          simp [put, unchanged, hend]
    · simp
    · simp [put, unchanged]
    · have hmono : fifo.trigger_len ≤ q.items.length → fifo.trigger_len ≤ q.items.length + 1 :=
        Nat.le_succ_of_le
      simp only [Bool.or_eq_true, h.ready, decide_eq_true_eq, hlen, true_and]
      constructor
      · rintro (⟨-, ht⟩ | ht)
        · exact hmono ht
        · exact ht
      · exact Or.inr

/-! ## Reads -/

theorem lower_eq {count n : Nat} (hn : count = n) (fifo : fifo_t) : lower count fifo =
    { fifo with
      ready := fifo.ready && !decide (n < fifo.trigger_len)
      empty := fifo.empty || decide (n = 0 ∧ n < fifo.trigger_len) } := by
  subst hn
  unfold lower
  by_cases ht : count < fifo.trigger_len
  · by_cases hc : count = 0
    · subst hc
      simp [ht]
    · simp [ht, hc]
  · simp [ht]

theorem lowerEvt_settled {fifo fifo' : fifo_t} {count n : Nat} (hn : count = n)
    (h : settled fifo = settled fifo') : settled (lowerEvt count fifo) = settled { fifo' with
      ready := fifo'.ready && !decide (n < fifo'.trigger_len)
      empty := fifo'.empty || decide (n = 0) } := by
  subst hn
  simp only [settled, fifo_t.mk.injEq] at h
  unfold lowerEvt
  rw [h.2.2.1]
  by_cases ht : count < fifo'.trigger_len
  · by_cases hc : count = 0
    · subst hc
      simp [settled, ht, h]
    · simp [settled, ht, hc, h]
  · by_cases hc : count = 0
    · subst hc
      simp [settled, ht, h]
    · simp [settled, ht, hc, h]

/-- The ring after a read that has taken a byte. -/
def taken (fifo : fifo_t) (n : Nat) : fifo_t :=
  { take fifo with
    full := false
    ready := fifo.ready && !decide (n < fifo.trigger_len)
    empty := decide (n = 0) }

section

variable {fifo : fifo_t} {q : Queue} {item : BitVec 8 × Option (BitVec 8)}
  {items : List (BitVec 8 × Option (BitVec 8))}

theorem not_empty (h : Holds fifo q) (hq : q.items = item :: items) : fifo.empty = false := by
  rw [← Bool.not_eq_true, h.empty, hq]
  simp

theorem rest_lt (h : Holds fifo q) (hq : q.items = item :: items) : items.length < fifo.len := by
  have hle := h.le
  rw [hq, List.length_cons] at hle
  omega

theorem taken_count (h : Holds fifo q) (hq : q.items = item :: items) :
    fifo_get_count { take fifo with full := false } = items.length := by
  have hlt := rest_lt h hq
  have hs : (fifo.start + 1) % fifo.len < fifo.len := Nat.mod_lt _ (by omega)
  refine count_eq hs ?_ (Nat.le_of_lt hlt) (iff_of_false Bool.false_ne_true (Nat.ne_of_lt hlt))
  have hend := h.end_eq
  rw [hq, List.length_cons, ← slot_succ] at hend
  exact hend

theorem readEvt_taken (h : Holds fifo q) (hq : q.items = item :: items) :
    settled (readEvt fifo).1 = settled (taken fifo items.length) ∧
      (readEvt fifo).2.1 = oldest fifo := by
  have hempty := not_empty h hq
  have hready : settled (taken fifo items.length) = settled { take fifo with
      full := false
      ready := fifo.ready && !decide (items.length < fifo.trigger_len)
      empty := fifo.empty || decide (items.length = 0) } := by
    rw [hempty, Bool.false_or]
    rfl
  unfold readEvt
  rw [if_neg (by simp [hempty]), hready]
  exact ⟨@lowerEvt_settled _ { take fifo with full := false } _ _
    (taken_count (h.of_settled rfl) hq) rfl, rfl⟩

/-- The read without events agrees, unless it takes the last byte with no trigger set. -/
theorem read_taken (h : Holds fifo q) (hq : q.items = item :: items) :
    read fifo = ({ taken fifo items.length with
      empty := decide (items.length = 0 ∧ 0 < fifo.trigger_len) }, oldest fifo) := by
  have hempty := not_empty h hq
  have hlast : (items.length = 0 ∧ items.length < fifo.trigger_len) ↔
      (items.length = 0 ∧ 0 < fifo.trigger_len) := by
    constructor
    · rintro ⟨h1, h2⟩
      exact ⟨h1, by omega⟩
    · rintro ⟨h1, h2⟩
      exact ⟨h1, by omega⟩
  have hflag : (fifo.empty || decide (items.length = 0 ∧ items.length < fifo.trigger_len)) =
      decide (items.length = 0 ∧ 0 < fifo.trigger_len) := by
    rw [hempty, Bool.false_or, decide_eq_decide]
    exact hlast
  unfold read
  rw [if_neg (by simp [hempty])]
  refine Prod.ext ((lower_eq (taken_count h hq) _).trans ?_) rfl
  simp only [take, taken]
  congr 1

theorem taken_holds (h : Holds fifo q) (hq : q.items = item :: items) :
    Holds (taken fifo items.length) { q with items := items } := by
  have hlt := rest_lt h hq
  have hend := h.end_eq
  rw [hq, List.length_cons, ← slot_succ] at hend
  have hused : q.used = true := h.used (by rw [hq]; exact List.cons_ne_nil item items)
  refine ⟨Nat.mod_lt _ (by omega), hend, Nat.le_of_lt hlt, fun i hi => ?_, decide_eq_true_iff,
    iff_of_false Bool.false_ne_true (Nat.ne_of_lt hlt), ?_, fun _ => hused, h.overrun⟩
  · have hi' : i + 1 < q.items.length := by
      rw [hq, List.length_cons]
      exact Nat.succ_lt_succ hi
    have hstored := h.stored (i + 1) hi'
    simp only [hq, List.getElem_cons_succ, ← slot_succ] at hstored
    exact hstored
  · have hready := h.ready
    rw [hq, List.length_cons] at hready
    simp only [taken, Bool.and_eq_true, hready, hused, true_and, Bool.not_eq_true',
      decide_eq_false_iff_not, take]
    omega

theorem oldest_sees (h : Holds fifo q) (hq : q.items = item :: items) :
    Stored fifo fifo.start item := by
  have hstored := h.stored 0 (by rw [hq]; simp)
  have hs : slot fifo.len fifo.start 0 = fifo.start := Nat.mod_eq_of_lt h.start_lt
  simp only [hq, List.getElem_cons_zero, hs] at hstored
  exact hstored

end

/-! ## The queue all along a run -/

/-- A read with nothing to read. -/
theorem read_idle {fifo : fifo_t} (he : fifo.empty = true) : read fifo = (fifo, ⟨0, 0⟩) := by
  rw [read, if_pos he]

theorem readEvt_idle {fifo : fifo_t} (he : fifo.empty = true) :
    settled (readEvt fifo).1 = settled fifo ∧ (readEvt fifo).2.1 = ⟨0, 0⟩ := by
  unfold readEvt
  rw [if_pos he]
  exact ⟨rfl, rfl⟩

/-- What a read does to the ring that holds a queue, with events and without. -/
structure ReadRight (fifo : fifo_t) (q : Queue) : Prop where
  holds : Holds (readEvt fifo).1 { q with items := q.items.tail }
  twin : ¬(fifo.trigger_len = 0 ∧ fifo_get_count fifo = 1) →
    settled (read fifo).1 = settled (readEvt fifo).1
  same : (readEvt fifo).2.1 = (read fifo).2
  idle : q.items = [] → settled (readEvt fifo).1 = settled fifo
  sees : Sees ((read fifo).2.ret, none) q.items.head?
  sees_tagged : Sees ((read fifo).2.ret, some (read fifo).2.tag) q.items.head?

theorem read_right {fifo : fifo_t} {q : Queue} (h : Holds fifo q) : ReadRight fifo q := by
  cases hq : q.items with
  | nil =>
    have he : fifo.empty = true := h.empty.mpr (by rw [hq]; rfl)
    obtain ⟨h1, h2⟩ := readEvt_idle he
    have hsame : { q with items := q.items.tail } = q := by
      rw [hq, List.tail_nil, ← hq]
    refine ⟨?_, fun _ => ?_, ?_, fun _ => h1, ?_, ?_⟩
    · rw [hsame]
      exact h.of_settled h1
    · rw [read_idle he, h1]
    · rw [read_idle he, h2]
    · rw [read_idle he, hq]
      simp [Sees]
    · rw [read_idle he, hq]
      simp [Sees]
  | cons item items =>
    obtain ⟨h1, h2⟩ := readEvt_taken h hq
    obtain ⟨hbuf, htag⟩ := oldest_sees h hq
    refine ⟨?_, fun hlast => ?_, ?_, fun hn => ?_, ?_, ?_⟩
    · rw [hq, List.tail_cons]
      exact (taken_holds h hq).of_settled h1
    · have hcount : fifo_get_count fifo = items.length + 1 := by rw [h.count, hq, List.length_cons]
      have hflag : decide (items.length = 0 ∧ 0 < fifo.trigger_len) =
          decide (items.length = 0) := by
        rw [decide_eq_decide]
        omega
      rw [h1, read_taken h hq]
      simp only [settled, taken, hflag]
    · rw [h2, read_taken h hq]
    · rw [hq] at hn
      exact absurd hn (List.cons_ne_nil item items)
    · rw [read_taken h hq, hq]
      exact ⟨hbuf, by simp⟩
    · rw [read_taken h hq, hq]
      refine ⟨hbuf, fun t w ht hw => ?_⟩
      rw [← htag w hw, ← Option.some.inj ht]
      rfl

/-- One access, as the queue has it. -/
theorem step_holds {fifo : fifo_t} {q : Queue} (op : Op) (h : Holds fifo q)
    (ha : ¬LastUntriggered fifo op) :
    Holds (step fifo op).1 (q.step fifo.len op).1 ∧ StepRight fifo q op := by
  have hr := read_right h
  have hlast : op.isRead = true → ¬(fifo.trigger_len = 0 ∧ fifo_get_count fifo = 1) :=
    fun hop hlast => ha ⟨hop, hlast⟩
  cases op with
  | write val => exact ⟨write_holds none val h, by simp [step], by simp [Op.isRead],
      (writeEvt_settled none val fifo).symm⟩
  | write_tagged tag val => exact ⟨write_holds (some tag) val h, by simp [step],
      by simp [Op.isRead], (writeEvt_settled (some tag) val fifo).symm⟩
  | write_evt val =>
    have hs := writeEvt_settled none val fifo
    exact ⟨(write_holds none val h).of_settled hs, by simp [step], by simp [Op.isRead], hs⟩
  | write_evt_tagged tag val =>
    have hs := writeEvt_settled (some tag) val fifo
    exact ⟨(write_holds (some tag) val h).of_settled hs, by simp [step], by simp [Op.isRead], hs⟩
  | read =>
    have ht := hr.twin (hlast rfl)
    exact ⟨hr.holds.of_settled ht, fun seen hseen => Option.some.inj hseen ▸ hr.sees,
      fun _ hq => ht.trans (hr.idle hq), ht⟩
  | read_tagged =>
    have ht := hr.twin (hlast rfl)
    exact ⟨hr.holds.of_settled ht, fun seen hseen => Option.some.inj hseen ▸ hr.sees_tagged,
      fun _ hq => ht.trans (hr.idle hq), ht⟩
  | read_evt =>
    have ht := hr.twin (hlast rfl)
    refine ⟨hr.holds, fun seen hseen => Option.some.inj hseen ▸ ?_, fun _ hq => hr.idle hq, ht.symm⟩
    have hsees := hr.sees
    rw [← hr.same] at hsees
    exact hsees
  | read_evt_tagged =>
    have ht := hr.twin (hlast rfl)
    refine ⟨hr.holds, fun seen hseen => Option.some.inj hseen ▸ ?_, fun _ hq => hr.idle hq, ht.symm⟩
    have hsees := hr.sees_tagged
    rw [← hr.same] at hsees
    exact hsees

/-- Taking the last byte with no trigger set, the plain read misses that the queue is
empty, and the read with events does not. -/
theorem twins_differ {fifo : fifo_t} {q : Queue} {op : Op} (h : Holds fifo q)
    (hl : LastUntriggered fifo op) :
    settled (step fifo op).1 ≠ settled (step fifo op.twin).1 := by
  obtain ⟨hop, ht, hcount⟩ := hl
  rw [h.count] at hcount
  obtain ⟨item, hq⟩ := List.length_eq_one_iff.mp hcount
  have hne : settled (read fifo).1 ≠ settled (readEvt fifo).1 := by
    rw [(readEvt_taken h hq).1, read_taken h hq]
    intro heq
    have hflag := congrArg fifo_t.empty heq
    simp [settled, taken, ht] at hflag
  cases op with
  | write _ | write_tagged _ _ | write_evt _ | write_evt_tagged _ _ =>
    exact absurd hop (by simp [Op.isRead])
  | read | read_tagged => exact hne
  | read_evt | read_evt_tagged => exact hne.symm

/-- Along a run the ring is a bounded queue, with events and without, just when no read
takes the last byte with no trigger set. -/
theorem behaves_iff (ops : List Op) {fifo : fifo_t} {q : Queue} (h : Holds fifo q) :
    Behaves fifo q ops ↔ Avoids fifo ops := by
  induction ops generalizing fifo q with
  | nil => exact iff_of_true h.shows trivial
  | cons op ops ih =>
    by_cases hl : LastUntriggered fifo op
    · refine iff_of_false ?_ fun ha => ha.1 hl
      rintro ⟨-, hstep, -⟩
      exact twins_differ h hl hstep.twin
    · obtain ⟨h', hstep⟩ := step_holds op h hl
      have hrest := ih h'
      constructor
      · rintro ⟨-, -, hb⟩
        exact ⟨hl, hrest.mp hb⟩
      · rintro ⟨-, ha⟩
        exact ⟨h.shows, hstep, hrest.mpr ha⟩

/-! ## From the start -/

def Queue.empty : Queue := { items := [], overrun := false, used := false }

/-- A new ring is an empty queue. -/
theorem init_holds {len : Nat} {fifo : fifo_t} (h : fifo_init len = some fifo) (trigger_len : Nat)
    (e o f r : Bool) :
    Holds (fifo_set_evts e o f r (fifo_set_trigger_len trigger_len fifo)) Queue.empty := by
  unfold fifo_init at h
  split_ifs at h with hlen
  obtain rfl := Option.some.inj h
  have hpos : 0 < len := by omega
  refine ⟨hpos, rfl, Nat.zero_le _, fun i hi => absurd hi (Nat.not_lt_zero i),
    by simp [fifo_set_evts, fifo_set_trigger_len, fifo_reset, Queue.empty], ?_, ?_,
    fun hn => absurd rfl hn, rfl⟩
  · simp [fifo_set_evts, fifo_set_trigger_len, fifo_reset, Queue.empty]
    omega
  · simp [fifo_set_evts, fifo_set_trigger_len, fifo_reset, Queue.empty]

theorem the_fifo_is_a_bounded_queue {len : Nat} {fifo : fifo_t} (h : fifo_init len = some fifo)
    (trigger_len : Nat) (e o f r : Bool) (ops : List Op) :
    Behaves (fifo_set_evts e o f r (fifo_set_trigger_len trigger_len fifo)) Queue.empty ops ↔
      Avoids (fifo_set_evts e o f r (fifo_set_trigger_len trigger_len fifo)) ops :=
  behaves_iff ops (init_holds h trigger_len e o f r)

/-- With the trigger that `fifo_init` leaves, a ring that was emptied is not empty. -/
theorem an_emptied_ring_is_not_empty :
    ¬∀ (len : Nat) (fifo : fifo_t) (trigger_len : Nat) (ops : List Op), fifo_init len = some fifo →
      Behaves (fifo_set_trigger_len trigger_len fifo) Queue.empty ops := by
  intro hall
  obtain ⟨-, -, -, -, hshows⟩ := hall 16 _ 0 [.write 0x41, .read] rfl
  exact absurd (hshows.empty.mpr rfl) (by decide)

theorem a_ring_of_sixteen : ∃ fifo, fifo_init 16 = some fifo ∧
    Behaves (fifo_set_evts true true true true (fifo_set_trigger_len 1 fifo)) Queue.empty
      [.write_tagged 1 0x41, .write_evt 0x42, .read_tagged, .read] := by
  have h : fifo_init 16 = some ((fifo_init 16).get rfl) := rfl
  refine ⟨_, h, (the_fifo_is_a_bounded_queue h 1 true true true true _).mpr ?_⟩
  decide

end blumach.fifo
