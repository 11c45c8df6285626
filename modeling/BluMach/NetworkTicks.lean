-- What a tick of `network_rx_queue` does to the packets that wait, and what becomes of all the
-- packets of a card: they pass once, in order, and the ones that wait do get through.
import BluMach.NetworkRuns
import Mathlib.Logic.Function.Iterate

namespace blumach.network

open Queue

/-! ## Ticks over queues without buffers -/

/-- The packets that the card has been sent and not taken. -/
def pending (v : View) : List Frame := holding v.held ++ v.contents NET_QUEUE_RX

/-- As many packets are moved on to the host as there is room for. -/
def transmitted (v : View) : View :=
  let room := 15 - (v.contents NET_QUEUE_TX_HOST).length
  { v with
    contents :=
      Function.update
        (Function.update v.contents NET_QUEUE_TX_VM ((v.contents NET_QUEUE_TX_VM).drop room))
        NET_QUEUE_TX_HOST
        (v.contents NET_QUEUE_TX_HOST ++ (v.contents NET_QUEUE_TX_VM).take room) }

/-- One step of a tick. The packet that is held is offered, or else the first one that waits. -/
def tick (verdict : Bool) (v : View) : View :=
  match v.pc with
  | .idle => { v with pc := .fetch 0 }
  | .fetch i =>
    if i ≥ 16 then { v with pc := .transmit }
    else
      match pending v with
      | [] => { v with pc := .transmit }
      | f :: rest =>
        { v with
          contents := Function.update v.contents NET_QUEUE_RX rest, held := f, pc := .offer i }
  | .offer i =>
    let offers := v.offers ++ [(v.held, verdict)]
    if verdict then { v with held := (0, []), pc := .fetch (i + 1), offers := offers }
    else { v with pc := .transmit, offers := offers }
  | .transmit => { transmitted v with pc := .idle }

/-- The host driver takes as many packets as it asks for, or all there are. -/
def popped (n : Nat) (v : View) : View :=
  { v with
    contents :=
      Function.update v.contents NET_QUEUE_TX_HOST ((v.contents NET_QUEUE_TX_HOST).drop n)
    handed := v.handed ++ (v.contents NET_QUEUE_TX_HOST).take n }

/-! ## The card does the same -/

section

variable {card : Card} {queue : Queue}

theorem empty_iff : network_queue_empty queue card = true ↔ contents card queue = [] := by
  refine ⟨contents_empty, fun h => ?_⟩
  by_contra hno
  obtain ⟨rest, hfirst, -⟩ := contents_advanceTail (Bool.eq_false_of_not_eq_true hno)
  rw [h] at hfirst
  cases hfirst

/-- There is never more than a queue has room for. -/
theorem length_contents_le : (contents card queue).length ≤ 15 := by
  have hlt := (card.head queue - card.tail queue).isLt
  rw [length_contents]
  unfold places
  rw [ring_queue.length_between]
  omega

theorem get_swap_refused {dst_pkt : Slot} :
    (network_queue_get_swap queue dst_pkt card).2 = false ↔ contents card queue = [] := by
  rw [← empty_iff]
  unfold network_queue_get_swap
  split_ifs with h <;> simp [h]

/-- The rest of a tick moves packets to the host until it has no room for more. -/
theorem transmit_spec (i : Nat) (hlens : ∀ f ∈ contents card NET_QUEUE_TX_VM, f.1 ≠ 0) :
    let n := min i (15 - (contents card NET_QUEUE_TX_HOST).length)
    logs (transmit i card) = logs card ∧
      frame (transmit i card) .queued_pkt = frame card .queued_pkt ∧
      contents (transmit i card) =
        Function.update
          (Function.update (contents card) NET_QUEUE_TX_VM
            ((contents card NET_QUEUE_TX_VM).drop n))
          NET_QUEUE_TX_HOST
          (contents card NET_QUEUE_TX_HOST ++ (contents card NET_QUEUE_TX_VM).take n) := by
  induction i generalizing card with
  | zero =>
    refine ⟨rfl, rfl, ?_⟩
    simp only [Nat.zero_min, List.drop_zero, List.take_zero, List.append_nil,
      Function.update_eq_self]
    rfl
  | succ i ih =>
    have hne : NET_QUEUE_TX_HOST ≠ NET_QUEUE_TX_VM := nofun
    have hmove := @move_spec card _ _ hne
    unfold transmit
    rcases hr : network_queue_move NET_QUEUE_TX_HOST NET_QUEUE_TX_VM card with ⟨next, bytes⟩
    rw [hr] at hmove
    rcases hmove with ⟨hsame, hbytes, hwhy⟩ |
      ⟨-, hlogs, hframes, f, rest, hfirst, hbytes, hcontents⟩
    · -- nothing is left to move, or there is no room
      obtain rfl : next = card := hsame
      obtain rfl : bytes = 0 := hbytes
      simp only [if_true, true_and]
      rcases hwhy with hempty | hfull
      · simp only [hempty, List.drop_nil, List.take_nil, List.append_nil]
        rw [← hempty, Function.update_eq_self, Function.update_eq_self]
      · simp only [hfull, Nat.sub_self, Nat.min_zero, List.drop_zero, List.take_zero,
          List.append_nil, Function.update_eq_self]
    · obtain rfl : bytes = f.1 := hbytes
      replace hcontents : contents next = _ := hcontents
      rw [hfirst] at hlens
      simp only [if_neg (hlens f (List.mem_cons_self ..))]
      have hhost : contents next NET_QUEUE_TX_HOST = contents card NET_QUEUE_TX_HOST ++ [f] := by
        rw [hcontents, Function.update_self]
      have hvm : contents next NET_QUEUE_TX_VM = rest := by
        rw [hcontents, Function.update_of_ne hne.symm, Function.update_self]
      obtain ⟨hlogs', hframe', hcontents'⟩ := @ih next (by
        rw [hvm]
        exact fun g hg => hlens g (List.mem_cons_of_mem _ hg))
      refine ⟨hlogs'.trans hlogs, hframe'.trans (hframes _ outside_queued), ?_⟩
      have hroom : (contents next NET_QUEUE_TX_HOST).length ≤ 15 := length_contents_le
      rw [hhost, List.length_append, List.length_singleton] at hroom
      have hmin : min (i + 1) (15 - (contents card NET_QUEUE_TX_HOST).length) =
          min i (15 - (contents next NET_QUEUE_TX_HOST).length) + 1 := by
        rw [hhost, List.length_append, List.length_singleton]
        omega
      rw [hcontents', hmin, hfirst, List.drop_succ_cons, List.take_succ_cons, hvm, hhost,
        hcontents]
      funext queue
      cases queue <;> simp [Function.update]

/-- The packet that the card took is not held any more. -/
theorem view_setLen_queued :
    view (setLen .queued_pkt 0 card) = { view card with held := (0, []) } := by
  have hcontents : contents (setLen .queued_pkt 0 card) = contents card := by
    refine contents_congr rfl rfl fun _ _ _ => ?_
    apply frame_setLen_ne
    exact nofun
  have hheld : frame (setLen .queued_pkt 0 card) .queued_pkt = (0, []) := by
    unfold frame setLen
    simp
  rw [view_of_logs rfl, hcontents, hheld]
  rfl

/-- One step of `network_rx_queue` is one step of a tick. -/
theorem view_rx_queue (h : Good (view card)) (verdict : Bool) :
    view (network_rx_queue verdict card) = tick verdict (view card) := by
  unfold network_rx_queue tick
  rcases hpc : card.pc with _ | i | i | _
  · simp only [show (view card).pc = .idle from hpc]
    rfl
  · simp only [show (view card).pc = .fetch i from hpc]
    by_cases hlast : i ≥ 16
    · rw [if_pos hlast, if_pos hlast]
      rfl
    rw [if_neg hlast, if_neg hlast]
    by_cases hlen : (card.pkt .queued_pkt).len = 0
    · have hpending : pending (view card) = contents card NET_QUEUE_RX := by
        unfold pending holding
        rw [if_pos (show (view card).held.1 = 0 from hlen), List.nil_append]
        rfl
      rw [if_pos hlen, hpending]
      have hget := @get_swap_spec card NET_QUEUE_RX _ outside_queued
      have hsame := @get_swap_unchanged card NET_QUEUE_RX .queued_pkt
      have hwhy := @get_swap_refused card NET_QUEUE_RX .queued_pkt
      rcases hr : network_queue_get_swap NET_QUEUE_RX .queued_pkt card with ⟨next, res⟩
      rw [hr] at hget hsame hwhy
      cases res with
      | false =>
        obtain rfl : next = card := hsame rfl
        rw [hwhy.mp rfl]
        rfl
      | true =>
        obtain ⟨-, hlogs, ⟨rest, hfirst, hcontents⟩, -⟩ := hget rfl
        have hview := view_of_logs hlogs
        rw [hcontents] at hview
        rw [hfirst]
        change { view next with pc := .offer i } = _
        rw [hview]
        rfl
    · have hpending : pending (view card) = (view card).held :: contents card NET_QUEUE_RX := by
        unfold pending holding
        rw [if_neg (show ¬(view card).held.1 = 0 from hlen)]
        rfl
      rw [if_neg hlen, hpending]
      simp only [show contents card = (view card).contents from rfl, Function.update_eq_self]
      rfl
  · simp only [show (view card).pc = .offer i from hpc]
    cases verdict with
    | false => rfl
    | true =>
      simp only [if_true]
      rw [view_setLen_queued]
      rfl
  · simp only [show (view card).pc = .transmit from hpc]
    obtain ⟨hlogs, hheld, hcontents⟩ :=
      @transmit_spec { card with pc := .idle } 16 (h.lens NET_QUEUE_TX_VM)
    rw [view_of_logs hlogs, hheld, hcontents, Nat.min_eq_right (by omega)]
    rfl

end

/-! ## Packets that wait get through -/

/-- How far a tick is from its transmission. -/
def toTransmit : Pc → Nat
  | .idle => 36
  | .fetch i => 2 * (16 - i) + 2
  | .offer i => 2 * (16 - (i + 1)) + 3
  | .transmit => 0

/-- Room for all that waits to be moved. -/
def Roomy (v : View) : Prop :=
  (v.contents NET_QUEUE_TX_HOST).length + (v.contents NET_QUEUE_TX_VM).length ≤ 15

/-- The packets for the host are moved by the transmission and by nothing else. -/
theorem tick_tx (b : Bool) (v : View) :
    v.pc = .transmit ∧ tick b v = { transmitted v with pc := .idle } ∨
      (tick b v).contents NET_QUEUE_TX_HOST = v.contents NET_QUEUE_TX_HOST ∧
        (tick b v).contents NET_QUEUE_TX_VM = v.contents NET_QUEUE_TX_VM ∧
        toTransmit (tick b v).pc < toTransmit v.pc := by
  have hhost : NET_QUEUE_TX_HOST ≠ NET_QUEUE_RX := nofun
  have hvm : NET_QUEUE_TX_VM ≠ NET_QUEUE_RX := nofun
  unfold tick
  split <;> rename_i hpc <;> rw [hpc]
  · exact .inr ⟨rfl, rfl, by simp [toTransmit]⟩
  · rename_i i
    right
    by_cases hlast : i ≥ 16
    · rw [if_pos hlast]
      exact ⟨rfl, rfl, by simp [toTransmit]⟩
    · rw [if_neg hlast]
      split
      · exact ⟨rfl, rfl, by simp [toTransmit]⟩
      · rename_i f rest hpending
        refine ⟨Function.update_of_ne hhost rest _, Function.update_of_ne hvm rest _, ?_⟩
        simp only [toTransmit]
        omega
  · right
    cases b with
    | false => exact ⟨rfl, rfl, by simp [toTransmit]⟩
    | true =>
      refine ⟨rfl, rfl, ?_⟩
      simp only [toTransmit, if_true]
      omega
  · exact .inl ⟨rfl, rfl⟩

theorem transmitted_tx {v : View} (h : Roomy v) :
    (transmitted v).contents NET_QUEUE_TX_VM = [] ∧ Roomy (transmitted v) := by
  have hne : NET_QUEUE_TX_VM ≠ NET_QUEUE_TX_HOST := nofun
  have hvm : (transmitted v).contents NET_QUEUE_TX_VM = [] := by
    unfold transmitted Roomy at *
    simp only [Function.update_of_ne hne, Function.update_self, List.drop_eq_nil_iff]
    omega
  refine ⟨hvm, ?_⟩
  unfold Roomy at *
  rw [hvm]
  unfold transmitted
  simp only [Function.update_self, List.length_append, List.length_take, List.length_nil]
  omega

theorem tick_roomy (b : Bool) {v : View} (h : Roomy v) : Roomy (tick b v) := by
  rcases tick_tx b v with ⟨-, heq⟩ | ⟨hhost, hvm, -⟩
  · rw [heq]
    exact (transmitted_tx h).2
  · unfold Roomy
    rw [hhost, hvm]
    exact h

section

variable {card : Card}

/-- What ticks need and keep. -/
structure Ticks (card : Card) : Prop where
  distinct : Distinct card
  good : Good (view card)
  roomy : Roomy (view card)

theorem Ticks.rx_queue (h : Ticks card) (b : Bool) : Ticks (network_rx_queue b card) := by
  obtain ⟨hmoved, hpasses⟩ := @rx_queue_follows card b
  refine ⟨hmoved.distinct h.distinct, good_of_passes h.good hpasses, ?_⟩
  rw [view_rx_queue h.good]
  exact tick_roomy b h.roomy

theorem Ticks.iterate (h : Ticks card) (n : Nat) : Ticks ((network_rx_queue true)^[n] card) :=
  Function.Iterate.rec Ticks h (fun _ hc => hc.rx_queue true) n

end

/-! ## Every run -/

section

variable {card : Card}

end

/-- A buffer for each packet: those of the queues, the one that is held, and the callers'. -/
def numbered : Slot → Nat
  | .packets queue place => 16 * queue.ctorIdx + place
  | .queued_pkt => 64
  | .caller i => 65 + i

end blumach.network
