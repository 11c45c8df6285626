-- Packets are neither lost nor doubled, stay in order, and no two of them share a buffer,
-- whatever the order in which the machine, the host driver and the card call.
import BluMach.Network

namespace blumach.network

open Queue ring_queue

/-! ## What a queue holds -/

def places (card : Card) (queue : Queue) : List Place :=
  between (card.tail queue) (card.head queue)

/-- The packets of a queue, oldest first. -/
def contents (card : Card) (queue : Queue) : List Frame :=
  (places card queue).map (fun place => frame card (.packets queue place))

section

variable {card card' : Card} {queue : Queue}

theorem contents_congr (hhead : card'.head = card.head) (htail : card'.tail = card.tail)
    (h : ∀ queue, ∀ place ∈ places card queue,
      frame card' (.packets queue place) = frame card (.packets queue place)) :
    contents card' = contents card := by
  funext queue
  unfold contents places at *
  rw [hhead, htail]
  exact List.map_congr_left (h queue)

/-- A packet more at the head. -/
theorem contents_advanceHead (hfull : network_queue_full queue card = false) :
    contents (advanceHead queue card) =
      Function.update (contents card) queue
        (contents card queue ++ [frame card (.packets queue (card.head queue))]) := by
  have hne : card.head queue + 1 ≠ card.tail queue := of_decide_eq_false hfull
  funext other
  by_cases hq : other = queue
  · subst hq
    rw [Function.update_self]
    unfold contents places advanceHead
    simp only [Function.update_self]
    rw [between_push hne, List.map_append]
    rfl
  · rw [Function.update_of_ne hq]
    unfold contents places advanceHead
    simp only [Function.update_of_ne hq]
    rfl

/-- A packet less at the tail. -/
theorem contents_advanceTail (hempty : network_queue_empty queue card = false) :
    ∃ rest, contents card queue = frame card (.packets queue (card.tail queue)) :: rest ∧
      contents (advanceTail queue card) = Function.update (contents card) queue rest := by
  have hne : card.head queue ≠ card.tail queue := of_decide_eq_false hempty
  refine ⟨contents (advanceTail queue card) queue, ?_, ?_⟩
  · unfold contents places advanceTail
    simp only [Function.update_self]
    rw [between_pop hne]
    rfl
  · funext other
    by_cases hq : other = queue
    · subst hq
      rw [Function.update_self]
    · rw [Function.update_of_ne hq]
      unfold contents places advanceTail
      simp only [Function.update_of_ne hq]
      rfl

theorem contents_empty (h : network_queue_empty queue card = true) : contents card queue = [] := by
  have heq : card.head queue = card.tail queue := of_decide_eq_true h
  unfold contents places
  rw [heq, between_self]
  rfl

theorem length_contents : (contents card queue).length = (places card queue).length :=
  List.length_map ..

/-- A queue is full with one packet less than it has places. -/
theorem full_iff_length :
    network_queue_full queue card = true ↔ (contents card queue).length = 15 := by
  have hfull := full_iff (card.tail queue) (card.head queue)
  unfold network_queue_full
  rw [decide_eq_true_iff, hfull, length_contents]
  unfold places
  omega

end

/-! ## Owners -/

/-- No two packets share a buffer. -/
def Distinct (card : Card) : Prop := Function.Injective fun slot => (card.pkt slot).data

/-- The buffers of one card are the buffers of another, each where a permutation says. -/
def Moved (card card' : Card) : Prop :=
  ∃ σ : Equiv.Perm Slot, ∀ slot, (card'.pkt slot).data = (card.pkt (σ slot)).data

theorem Moved.refl (card : Card) : Moved card card := ⟨Equiv.refl _, fun _ => rfl⟩

theorem Moved.trans {a b c : Card} (hab : Moved a b) (hbc : Moved b c) : Moved a c := by
  obtain ⟨σ, hσ⟩ := hab
  obtain ⟨τ, hτ⟩ := hbc
  exact ⟨τ.trans σ, fun slot => (hτ slot).trans (hσ (τ slot))⟩

theorem Moved.distinct {a b : Card} (h : Moved a b) (ha : Distinct a) : Distinct b := by
  obtain ⟨σ, hσ⟩ := h
  intro x y hxy
  have hab : (a.pkt (σ x)).data = (a.pkt (σ y)).data :=
    (hσ x).symm.trans (Eq.trans hxy (hσ y))
  exact σ.injective (ha hab)

theorem moved_swap (a b : Slot) (card : Card) : Moved card (network_swap_packet a b card) :=
  ⟨Equiv.swap a b, fun _ => rfl⟩

theorem data_setLen (slot : Slot) (len : Int) (card : Card) (other : Slot) :
    ((setLen slot len card).pkt other).data = (card.pkt other).data := by
  unfold setLen
  by_cases h : other = slot
  · subst h
    simp only [Function.update_self]
  · simp only [Function.update_of_ne h]

theorem moved_of_data {a b : Card} (h : ∀ slot, (b.pkt slot).data = (a.pkt slot).data) :
    Moved a b := ⟨Equiv.refl _, h⟩

/-! ## Frames after each of the steps -/

theorem frame_setLen_ne {slot other : Slot} (h : other ≠ slot) (len : Int) (card : Card) :
    frame (setLen slot len card) other = frame card other := by
  unfold frame setLen
  simp only [Function.update_of_ne h]

/-- A write to one buffer is not seen in another packet. -/
theorem frame_memcpy_ne {card : Card} (hd : Distinct card) {slot other : Slot} (h : other ≠ slot)
    (data : List Byte) : frame (memcpy slot data card) other = frame card other := by
  have hne : (card.pkt other).data ≠ (card.pkt slot).data := fun heq => h (hd heq)
  unfold frame memcpy
  simp only [Function.update_of_ne hne]

theorem frame_memcpy_setLen (slot : Slot) (data : List Byte) (card : Card) :
    frame (setLen slot data.length (memcpy slot data card)) slot =
      ((data.length : Int), data) := by
  unfold frame setLen memcpy
  simp only [Function.update_self, Int.toNat_natCast]
  rw [List.take_left' rfl]

/-! ## Operations on queues -/

/-- What no queue keeps: the packet that is held, and the ones of callers. -/
def Outside (slot : Slot) : Prop := ∀ queue place, slot ≠ .packets queue place

theorem outside_queued : Outside .queued_pkt := fun _ _ => nofun

/-- What has passed, and where `network_rx_queue` is. -/
def logs (card : Card) := (card.pc, card.sent, card.handed, card.received, card.offers)

section

variable {card : Card} {queue : Queue}

/-- The head of a queue is not one of its packets. -/
theorem ne_head {other : Queue} {place : Place} (h : place ∈ places card other) :
    Slot.packets other place ≠ .packets queue (card.head queue) := by
  intro heq
  cases heq
  exact head_not_mem _ _ h

theorem put_spec {data : List Byte} (hd : Distinct card)
    (h : (network_queue_put queue data card).2 = true) :
    let card' := (network_queue_put queue data card).1
    Moved card card' ∧ logs card' = logs card ∧
      contents card' = Function.update (contents card) queue
        (contents card queue ++ [((data.length : Int), data)]) ∧
      (∀ slot, Outside slot → frame card' slot = frame card slot) ∧ (data.length : Int) ≠ 0 := by
  unfold network_queue_put at h ⊢
  simp only at h ⊢
  split_ifs at h ⊢ with hrefused
  have hlen : (data.length : Int) ≠ 0 := fun h0 => hrefused (.inl h0)
  have hfull : network_queue_full queue card = false := by
    by_contra hno
    exact hrefused (.inr (.inr (by simpa using hno)))
  let pkt := Slot.packets queue (card.head queue)
  let written := setLen pkt data.length (memcpy pkt data card)
  have hframe : ∀ slot, slot ≠ pkt → frame written slot = frame card slot := by
    intro slot hne
    exact (frame_setLen_ne hne _ _).trans (frame_memcpy_ne hd hne data)
  have hsame : contents written = contents card :=
    contents_congr rfl rfl fun _ _ hplace => hframe _ (ne_head hplace)
  refine ⟨moved_of_data fun slot => data_setLen _ _ _ slot, rfl, ?_, ?_, hlen⟩
  · have hpush : contents (advanceHead queue written) = _ := contents_advanceHead hfull
    rw [hsame] at hpush
    exact hpush.trans (congrArg _ (congrArg _ (congrArg (fun f => [f])
      (frame_memcpy_setLen pkt data card))))
  · intro slot hout
    exact hframe slot (hout queue _)

/-- After the tail has moved on, its place is not one of the packets. -/
theorem ne_tail (hempty : network_queue_empty queue card = false) {other : Queue} {place : Place}
    (h : place ∈ places (advanceTail queue card) other) :
    Slot.packets other place ≠ .packets queue (card.tail queue) := by
  intro heq
  cases heq
  unfold places advanceTail at h
  simp only [Function.update_self] at h
  exact tail_not_mem (of_decide_eq_false hempty) h

theorem get_swap_spec {dst_pkt : Slot} (hout : Outside dst_pkt)
    (h : (network_queue_get_swap queue dst_pkt card).2 = true) :
    let card' := (network_queue_get_swap queue dst_pkt card).1
    Moved card card' ∧ logs card' = logs card ∧
      (∃ rest, contents card queue = frame card' dst_pkt :: rest ∧
        contents card' = Function.update (contents card) queue rest) ∧
      ∀ slot, Outside slot → slot ≠ dst_pkt → frame card' slot = frame card slot := by
  unfold network_queue_get_swap at h ⊢
  split_ifs at h ⊢ with hno
  have hempty : network_queue_empty queue card = false := by simpa using hno
  let src_pkt := Slot.packets queue (card.tail queue)
  let swapped := advanceTail queue (network_swap_packet src_pkt dst_pkt card)
  have hframe : ∀ slot, slot ≠ src_pkt → slot ≠ dst_pkt →
      frame swapped slot = frame card slot := by
    intro slot hne hdst
    exact congrArg (frame card) (Equiv.swap_apply_of_ne_of_ne hne hdst)
  have hsame : contents swapped = contents (advanceTail queue card) :=
    contents_congr rfl rfl fun _ _ hplace => hframe _ (ne_tail hempty hplace) (hout _ _).symm
  obtain ⟨rest, hfirst, hrest⟩ := contents_advanceTail hempty
  refine ⟨moved_swap _ _ card, rfl, ⟨_, ?_, hsame.trans hrest⟩,
    fun slot hslot hdst => hframe slot (hslot queue _) hdst⟩
  have hgot : frame swapped dst_pkt = frame card src_pkt :=
    congrArg (frame card) (Equiv.swap_apply_right src_pkt dst_pkt)
  change _ = frame swapped dst_pkt :: _
  rw [hgot]
  exact hfirst

/-- A move between two queues, unless the one is empty or the other full. The result is the length
of the packet that moved. -/
theorem move_spec {dst_q src_q : Queue} (hne : dst_q ≠ src_q) :
    let card' := (network_queue_move dst_q src_q card).1
    let bytes := (network_queue_move dst_q src_q card).2
    (card' = card ∧ bytes = 0 ∧
      (contents card src_q = [] ∨ (contents card dst_q).length = 15)) ∨
    Moved card card' ∧ logs card' = logs card ∧
      (∀ slot, Outside slot → frame card' slot = frame card slot) ∧
      ∃ f rest, contents card src_q = f :: rest ∧ bytes = f.1 ∧
        contents card' = Function.update (Function.update (contents card) src_q rest) dst_q
          (contents card dst_q ++ [f]) := by
  unfold network_queue_move
  split_ifs with hno hfull
  · exact .inl ⟨rfl, rfl, .inl (contents_empty hno)⟩
  · exact .inl ⟨rfl, rfl, .inr (full_iff_length.mp hfull)⟩
  right
  have hempty : network_queue_empty src_q card = false := by simpa using hno
  have hfull' : network_queue_full dst_q card = false := by simpa using hfull
  let src_pkt := Slot.packets src_q (card.tail src_q)
  let dst_pkt := Slot.packets dst_q (card.head dst_q)
  let swapped := network_swap_packet src_pkt dst_pkt card
  have hframe : ∀ slot, slot ≠ src_pkt → slot ≠ dst_pkt →
      frame swapped slot = frame card slot := by
    intro slot hsrc hdst
    exact congrArg (frame card) (Equiv.swap_apply_of_ne_of_ne hsrc hdst)
  have hgot : frame swapped dst_pkt = frame card src_pkt :=
    congrArg (frame card) (Equiv.swap_apply_right src_pkt dst_pkt)
  refine ⟨moved_swap _ _ card, rfl, fun slot hslot => hframe slot (hslot _ _) (hslot _ _), ?_⟩
  -- the tail of the one queue, and then the head of the other
  let popped := advanceTail src_q swapped
  have hsame : contents popped = contents (advanceTail src_q card) := by
    refine contents_congr rfl rfl fun other place hplace => ?_
    have hhead : Slot.packets other place ≠
        .packets dst_q ((advanceTail src_q card).head dst_q) := ne_head hplace
    exact hframe _ (ne_tail hempty hplace) hhead
  obtain ⟨rest, hfirst, hrest⟩ := contents_advanceTail hempty
  have hroom : network_queue_full dst_q popped = false := by
    have htail : popped.tail dst_q = card.tail dst_q := Function.update_of_ne hne _ _
    unfold network_queue_full
    rw [htail]
    exact hfull'
  have hpush := contents_advanceHead hroom
  have hmoved : frame popped (.packets dst_q (popped.head dst_q)) = frame card src_pkt := hgot
  refine ⟨_, _, hfirst, congrArg Prod.fst hgot, ?_⟩
  change contents (advanceHead dst_q popped) = _
  rw [hpush, hmoved, hsame, hrest, Function.update_of_ne hne]

end

end blumach.network
