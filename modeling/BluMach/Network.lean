-- The packet queues of a network card in `network.c`: rings of buffers that change hands by
-- being swapped, between the virtual machine, the host driver and one packet that is held.
import BluMach.RingQueue
import Mathlib.Logic.Equiv.Basic
import Mathlib.Logic.Function.Basic

namespace blumach.network

/-- For the literals of `Fin 16`. -/
scoped instance neZero_16 : @NeZero Nat Zero.ofOfNat0 16 := ⟨by decide⟩

/-! ## State -/

def NET_MAX_FRAME : Int := 1518

/-- `NET_QUEUE_LEN` is 16, and the mask keeps a sum within it, as `Fin 16` does. -/
abbrev Place := Fin 16

inductive Queue where
  | NET_QUEUE_RX
  | NET_QUEUE_TX_VM
  | NET_QUEUE_TX_HOST
  | NET_QUEUE_RX_ON_TX
  deriving DecidableEq, Repr

open Queue

/-- Where a `netpkt_t` is kept. The callers have theirs in one array. -/
inductive Slot where
  | packets (queue : Queue) (place : Place)
  | queued_pkt
  | caller (i : Nat)
  deriving DecidableEq

abbrev Byte := BitVec 8

/-- `netpkt_t`: the buffer that `data` points to, and the length. -/
structure Netpkt where
  data : Nat
  len : Int
  deriving DecidableEq

/-- A packet as the card and the host see it. -/
abbrev Frame := Int × List Byte

/-- Where `network_rx_queue` is. It takes the receive mutex to fetch a packet, has none while
the card looks at it, and takes the transmit mutex for the rest. -/
inductive Pc where
  | idle
  | fetch (i : Nat)
  | offer (i : Nat)
  | transmit
  deriving DecidableEq

/-- The queues and the packets of a card, the buffers they point to, and what has passed. -/
structure Card where
  pkt : Slot → Netpkt
  /-- The bytes of each buffer. -/
  mem : Nat → List Byte
  head : Queue → Place
  tail : Queue → Place
  pc : Pc
  /-- What `network_tx` took. -/
  sent : List Frame
  /-- What the host driver was handed. -/
  handed : List Frame
  /-- What was put for the card. -/
  received : List Frame
  /-- What the card was offered, and whether it took it. -/
  offers : List (Frame × Bool)

/-- The bytes of a packet. -/
def frame (card : Card) (slot : Slot) : Frame :=
  ((card.pkt slot).len, (card.mem (card.pkt slot).data).take (card.pkt slot).len.toNat)

/-! ## Queues -/

def network_queue_full (queue : Queue) (card : Card) : Bool :=
  card.head queue + 1 = card.tail queue

def network_queue_empty (queue : Queue) (card : Card) : Bool := card.head queue = card.tail queue

def network_swap_packet (pkt1 pkt2 : Slot) (card : Card) : Card :=
  { card with pkt := card.pkt ∘ Equiv.swap pkt1 pkt2 }

/-- `memcpy` to the start of the buffer of a packet. -/
def memcpy (slot : Slot) (data : List Byte) (card : Card) : Card :=
  { card with
    mem := Function.update card.mem (card.pkt slot).data
      (data ++ (card.mem (card.pkt slot).data).drop data.length) }

def setLen (slot : Slot) (len : Int) (card : Card) : Card :=
  { card with pkt := Function.update card.pkt slot { card.pkt slot with len := len } }

/-- The head of a queue moves on. -/
def advanceHead (queue : Queue) (card : Card) : Card :=
  { card with head := Function.update card.head queue (card.head queue + 1) }

def advanceTail (queue : Queue) (card : Card) : Card :=
  { card with tail := Function.update card.tail queue (card.tail queue + 1) }

/-- The length is the one of the data. -/
def network_queue_put (queue : Queue) (data : List Byte) (card : Card) : Card × Bool :=
  let len : Int := data.length
  if len = 0 ∨ len > NET_MAX_FRAME ∨ network_queue_full queue card then (card, false)
  else
    let pkt := Slot.packets queue (card.head queue)
    let card := setLen pkt len (memcpy pkt data card)
    (advanceHead queue card, true)

def network_queue_put_swap (queue : Queue) (src_pkt : Slot) (card : Card) : Card × Bool :=
  let len := (card.pkt src_pkt).len
  if len = 0 ∨ len > NET_MAX_FRAME ∨ network_queue_full queue card then (card, false)
  else
    let dst_pkt := Slot.packets queue (card.head queue)
    (advanceHead queue (network_swap_packet src_pkt dst_pkt card), true)

def network_queue_get_swap (queue : Queue) (dst_pkt : Slot) (card : Card) : Card × Bool :=
  if network_queue_empty queue card then (card, false)
  else
    let src_pkt := Slot.packets queue (card.tail queue)
    (advanceTail queue (network_swap_packet src_pkt dst_pkt card), true)

/-- The result is the length of the packet that moved. -/
def network_queue_move (dst_q src_q : Queue) (card : Card) : Card × Int :=
  if network_queue_empty src_q card then (card, 0)
  else if network_queue_full dst_q card then (card, 0)
  else
    let src_pkt := Slot.packets src_q (card.tail src_q)
    let dst_pkt := Slot.packets dst_q (card.head dst_q)
    let card := network_swap_packet src_pkt dst_pkt card
    let card := advanceTail src_q (advanceHead dst_q card)
    (card, (card.pkt dst_pkt).len)

/-! ## Calls -/

def network_tx (data : List Byte) (card : Card) : Card :=
  let (card, res) := network_queue_put NET_QUEUE_TX_VM data card
  if res then { card with sent := card.sent ++ [((data.length : Int), data)] } else card

/-- `network_tx_pop`, to a packet of the caller. -/
def network_tx_pop (out_pkt : Nat) (card : Card) : Card × Bool :=
  let (card, ret) := network_queue_get_swap NET_QUEUE_TX_HOST (.caller out_pkt) card
  if ret then ({ card with handed := card.handed ++ [frame card (.caller out_pkt)] }, true)
  else (card, false)

/-- `network_tx_popv`, to the packets of the caller from one on. -/
def network_tx_popv (pkt_vec : Nat) : Nat → Card → Card × Nat
  | 0, card => (card, 0)
  | vec_size + 1, card =>
    let (card, res) := network_tx_pop pkt_vec card
    if res then
      let (card, pkt_count) := network_tx_popv (pkt_vec + 1) vec_size card
      (card, pkt_count + 1)
    else (card, 0)

def network_rx_put (data : List Byte) (card : Card) : Card × Bool :=
  let (card, ret) := network_queue_put NET_QUEUE_RX data card
  if ret then ({ card with received := card.received ++ [((data.length : Int), data)] }, true)
  else (card, false)

def network_rx_put_pkt (pkt : Nat) (card : Card) : Card × Bool :=
  let (next, ret) := network_queue_put_swap NET_QUEUE_RX (.caller pkt) card
  if ret then ({ next with received := next.received ++ [frame card (.caller pkt)] }, true)
  else (card, false)

/-- The transmission that ends `network_rx_queue`. -/
def transmit : Nat → Card → Card
  | 0, card => card
  | i + 1, card =>
    let (card, bytes) := network_queue_move NET_QUEUE_TX_HOST NET_QUEUE_TX_VM card
    if bytes = 0 then card else transmit i card

/-- One step of `network_rx_queue`. Only an offer asks for the verdict of the card. -/
def network_rx_queue (verdict : Bool) (card : Card) : Card :=
  match card.pc with
  | .idle => { card with pc := .fetch 0 }
  | .fetch i =>
    if i ≥ 16 then { card with pc := .transmit }
    else if (card.pkt .queued_pkt).len = 0 then
      let (card, res) := network_queue_get_swap NET_QUEUE_RX .queued_pkt card
      if res then { card with pc := .offer i } else { card with pc := .transmit }
    else { card with pc := .offer i }
  | .offer i =>
    let card := { card with offers := card.offers ++ [(frame card .queued_pkt, verdict)] }
    if verdict then setLen .queued_pkt 0 { card with pc := .fetch (i + 1) }
    else { card with pc := .transmit }
  | .transmit => transmit 16 { card with pc := .idle }

/-- What can happen next. A caller can write to its own packets at any time. -/
inductive Op where
  | tx (data : List Byte)
  | tx_pop (out_pkt : Nat)
  | tx_popv (pkt_vec vec_size : Nat)
  | rx_put (data : List Byte)
  | rx_put_pkt (pkt : Nat)
  | fill (pkt : Nat) (bytes : List Byte) (len : Int)
  | rx_queue (verdict : Bool)

def step (card : Card) : Op → Card
  | .tx data => network_tx data card
  | .tx_pop out_pkt => (network_tx_pop out_pkt card).1
  | .tx_popv pkt_vec vec_size => (network_tx_popv pkt_vec vec_size card).1
  | .rx_put data => (network_rx_put data card).1
  | .rx_put_pkt pkt => (network_rx_put_pkt pkt card).1
  | .fill pkt bytes len => setLen (.caller pkt) len (memcpy (.caller pkt) bytes card)
  | .rx_queue verdict => network_rx_queue verdict card

def run (card : Card) (ops : List Op) : Card := ops.foldl step card

end blumach.network
