-- Runs of a network card: a simulation by queues that have no buffers, in which packets pass
-- one at a time.
import BluMach.NetworkLaws
import Mathlib.Logic.Relation

namespace blumach.network

open Queue

/-! ## Queues without buffers -/

/-- A card with its packets for what they hold. -/
structure View where
  contents : Queue → List Frame
  held : Frame
  pc : Pc
  sent : List Frame
  handed : List Frame
  received : List Frame
  offers : List (Frame × Bool)

def view (card : Card) : View :=
  ⟨contents card, frame card .queued_pkt, card.pc, card.sent, card.handed, card.received,
    card.offers⟩

/-- What can happen to the packets, one at a time. -/
inductive Passes : View → View → Prop where
  | sends (v : View) (f : Frame) (h : f.1 ≠ 0) :
    Passes v
      { v with
        contents :=
          Function.update v.contents NET_QUEUE_TX_VM (v.contents NET_QUEUE_TX_VM ++ [f])
        sent := v.sent ++ [f] }
  | moves (v : View) (f : Frame) (rest : List Frame) (h : v.contents NET_QUEUE_TX_VM = f :: rest) :
    Passes v
      { v with
        contents :=
          Function.update (Function.update v.contents NET_QUEUE_TX_VM rest) NET_QUEUE_TX_HOST
            (v.contents NET_QUEUE_TX_HOST ++ [f]) }
  | hands (v : View) (f : Frame) (rest : List Frame)
    (h : v.contents NET_QUEUE_TX_HOST = f :: rest) :
    Passes v
      { v with
        contents := Function.update v.contents NET_QUEUE_TX_HOST rest
        handed := v.handed ++ [f] }
  | puts (v : View) (f : Frame) (h : f.1 ≠ 0) :
    Passes v
      { v with
        contents := Function.update v.contents NET_QUEUE_RX (v.contents NET_QUEUE_RX ++ [f])
        received := v.received ++ [f] }
  | fetches (v : View) (f : Frame) (rest : List Frame) (i : Nat) (hheld : v.held.1 = 0)
    (h : v.contents NET_QUEUE_RX = f :: rest) :
    Passes v
      { v with
        contents := Function.update v.contents NET_QUEUE_RX rest
        held := f
        pc := .offer i }
  | goes (v : View) (pc : Pc) (h : ∀ i, pc = .offer i → v.held.1 ≠ 0) : Passes v { v with pc := pc }
  | takes (v : View) (i j : Nat) (h : v.pc = .offer i) :
    Passes v
      { v with
        held := (0, [])
        pc := .fetch j
        offers := v.offers ++ [(v.held, true)] }
  | refuses (v : View) (i : Nat) (h : v.pc = .offer i) :
    Passes v { v with pc := .transmit, offers := v.offers ++ [(v.held, false)] }

/-- The packets that the card took. -/
def taken (offers : List (Frame × Bool)) : List Frame :=
  (offers.filter (·.2)).map (·.1)

/-- The packet that is held, if any. -/
def holding (held : Frame) : List Frame := if held.1 = 0 then [] else [held]

structure Good (v : View) : Prop where
  lens : ∀ queue, ∀ f ∈ v.contents queue, f.1 ≠ 0
  tx : v.sent = v.handed ++ v.contents NET_QUEUE_TX_HOST ++ v.contents NET_QUEUE_TX_VM
  rx : v.received = taken v.offers ++ holding v.held ++ v.contents NET_QUEUE_RX
  offering : ∀ i, v.pc = .offer i → v.held.1 ≠ 0
  /-- Every offer is of the first packet that the card has not taken yet. -/
  offered : ∀ before f verdict later, v.offers = before ++ (f, verdict) :: later →
    v.received[(taken before).length]? = some f

theorem taken_append (offers : List (Frame × Bool)) (f : Frame) (verdict : Bool) :
    taken (offers ++ [(f, verdict)]) = taken offers ++ if verdict = true then [f] else [] := by
  unfold taken
  rw [List.filter_append, List.map_append]
  cases verdict <;> rfl

/-- A packet more does not change what the ones before it are. -/
theorem getElem?_append_of_some {l m : List Frame} {i : Nat} {f : Frame} (h : l[i]? = some f) :
    (l ++ m)[i]? = some f := by
  obtain ⟨hi, -⟩ := List.getElem?_eq_some_iff.mp h
  rw [List.getElem?_append_left hi]
  exact h

/-- The packet that is held is the first that has not been taken, so it can be offered. -/
theorem offered_append {offers : List (Frame × Bool)} {received rest : List Frame} {held : Frame}
    (h : ∀ before f verdict later, offers = before ++ (f, verdict) :: later →
      received[(taken before).length]? = some f)
    (hrx : received = taken offers ++ holding held ++ rest) (hheld : held.1 ≠ 0) (b : Bool) :
    ∀ before f verdict later, offers ++ [(held, b)] = before ++ (f, verdict) :: later →
      received[(taken before).length]? = some f := by
  intro before f verdict later heq
  rcases List.eq_nil_or_concat later with rfl | ⟨later, last, rfl⟩
  · obtain ⟨rfl, hlast⟩ := List.append_inj' heq rfl
    cases hlast
    rw [hrx, holding, if_neg hheld]
    simp
  · rw [List.concat_eq_append, ← List.cons_append, ← List.append_assoc] at heq
    obtain ⟨hbefore, -⟩ := List.append_inj' heq rfl
    exact h before f verdict later hbefore

/-- One packet at a time, nothing is lost, doubled or overtaken. -/
theorem good_passes {v w : View} (h : Good v) (hp : Passes v w) : Good w := by
  obtain ⟨hlens, htx, hrx, hoffering, hoffered⟩ := h
  -- a queue that ends up with packets it had, or with one more that is not empty
  have hlens_update : ∀ (q : Queue) (l : List Frame), (∀ f ∈ l, f.1 ≠ 0) →
      ∀ queue, ∀ f ∈ Function.update v.contents q l queue, f.1 ≠ 0 := by
    intro q l hl queue f hf
    by_cases hq : queue = q
    · subst hq
      rw [Function.update_self] at hf
      exact hl f hf
    · rw [Function.update_of_ne hq] at hf
      exact hlens queue f hf
  have hlens_push : ∀ (q : Queue) (f : Frame), f.1 ≠ 0 → ∀ g ∈ v.contents q ++ [f], g.1 ≠ 0 := by
    intro q f hf g hg
    rcases List.mem_append.mp hg with hg | hg
    · exact hlens q g hg
    · rw [List.mem_singleton.mp hg]
      exact hf
  cases hp with
  | sends f hf =>
    refine ⟨hlens_update _ _ (hlens_push _ f hf), ?_, hrx, hoffering, hoffered⟩
    simp [htx]
  | moves f rest hfirst =>
    have hall := hlens NET_QUEUE_TX_VM
    rw [hfirst] at hall
    refine ⟨?_, ?_, hrx, hoffering, hoffered⟩
    · intro queue g hg
      by_cases hq : queue = NET_QUEUE_TX_HOST
      · subst hq
        simp only [Function.update_self] at hg
        exact hlens_push _ f (hall f (List.mem_cons_self ..)) g hg
      · simp only [Function.update_of_ne hq] at hg
        exact hlens_update _ rest (fun g hg => hall g (List.mem_cons_of_mem _ hg)) queue g hg
    · simp [htx, hfirst]
  | hands f rest hfirst =>
    have hall := hlens NET_QUEUE_TX_HOST
    rw [hfirst] at hall
    refine ⟨hlens_update _ rest fun g hg => hall g (List.mem_cons_of_mem _ hg), ?_, hrx,
      hoffering, hoffered⟩
    simp [htx, hfirst]
  | puts f hf =>
    refine ⟨hlens_update _ _ (hlens_push _ f hf), htx, ?_, hoffering, ?_⟩
    · simp [hrx]
    · intro before g verdict later heq
      exact getElem?_append_of_some (hoffered before g verdict later heq)
  | fetches f rest i hheld hfirst =>
    have hall := hlens NET_QUEUE_RX
    rw [hfirst] at hall
    have hf : f.1 ≠ 0 := hall f (List.mem_cons_self ..)
    refine ⟨hlens_update _ rest fun g hg => hall g (List.mem_cons_of_mem _ hg), htx, ?_,
      fun _ _ => hf, hoffered⟩
    simp [hrx, hfirst, holding, hheld, hf]
  | goes pc hpc => exact ⟨hlens, htx, hrx, hpc, hoffered⟩
  | takes i j hpc =>
    have hheld := hoffering i hpc
    have hnext := offered_append hoffered hrx hheld true
    refine ⟨hlens, htx, ?_, fun _ => nofun, hnext⟩
    rw [taken_append]
    simp [hrx, holding, hheld]
  | refuses i hpc =>
    have hheld := hoffering i hpc
    have hnext := offered_append hoffered hrx hheld false
    refine ⟨hlens, htx, ?_, fun _ => nofun, hnext⟩
    rw [taken_append]
    simp [hrx]

theorem good_of_passes {v w : View} (h : Good v) (hp : Relation.ReflTransGen Passes v w) :
    Good w := by
  induction hp with
  | refl => exact h
  | tail _ hp ih => exact good_passes ih hp

/-! ## Calls -/

/-- Buffers change places, and packets pass. -/
def Follows (card card' : Card) : Prop :=
  Moved card card' ∧ Relation.ReflTransGen Passes (view card) (view card')

theorem Follows.refl (card : Card) : Follows card card := ⟨Moved.refl card, .refl⟩

theorem Follows.trans {a b c : Card} (hab : Follows a b) (hbc : Follows b c) : Follows a c :=
  ⟨hab.1.trans hbc.1, hab.2.trans hbc.2⟩

theorem view_of_logs {card card' : Card} (h : logs card' = logs card) :
    view card' =
      { view card with contents := contents card', held := frame card' .queued_pkt } := by
  unfold logs at h
  simp only [Prod.mk.injEq] at h
  obtain ⟨hpc, hsent, hhanded, hreceived, hoffers⟩ := h
  unfold view
  rw [hpc, hsent, hhanded, hreceived, hoffers]

section

variable {card : Card} {queue : Queue}

theorem get_swap_unchanged {dst_pkt : Slot}
    (h : (network_queue_get_swap queue dst_pkt card).2 = false) :
    (network_queue_get_swap queue dst_pkt card).1 = card := by
  unfold network_queue_get_swap at h ⊢
  split_ifs at h ⊢
  rfl

theorem transmit_follows (i : Nat) : Follows card (transmit i card) := by
  induction i generalizing card with
  | zero => exact Follows.refl card
  | succ i ih =>
    have hne : NET_QUEUE_TX_HOST ≠ NET_QUEUE_TX_VM := nofun
    have hmove := @move_spec card _ _ hne
    unfold transmit
    rcases hr : network_queue_move NET_QUEUE_TX_HOST NET_QUEUE_TX_VM card with ⟨next, bytes⟩
    rw [hr] at hmove
    have hstep : Follows card next := by
      rcases hmove with ⟨hsame, -⟩ | ⟨hmoved, hlogs, hframes, f, rest, hfirst, -, hcontents⟩
      · obtain rfl : next = card := hsame
        exact Follows.refl next
      · have hview := view_of_logs hlogs
        rw [hframes _ outside_queued, hcontents] at hview
        refine ⟨hmoved, .single ?_⟩
        rw [hview]
        exact Passes.moves (view card) f rest hfirst
    simp only
    split_ifs
    · exact hstep
    · exact hstep.trans ih

/-- A change of place in `network_rx_queue` that moves no packet. -/
theorem goes_follows (pc : Pc) (h : ∀ i, pc = .offer i → (card.pkt .queued_pkt).len ≠ 0) :
    Follows card { card with pc := pc } :=
  ⟨moved_of_data fun _ => rfl, .single (Passes.goes (view card) pc h)⟩

theorem rx_queue_follows (verdict : Bool) : Follows card (network_rx_queue verdict card) := by
  unfold network_rx_queue
  split
  case h_1 => exact goes_follows (.fetch 0) fun _ => nofun
  case h_2 i hpc =>
    split_ifs with hlast hlen
    · exact goes_follows .transmit fun _ => nofun
    · have hget := @get_swap_spec card NET_QUEUE_RX _ outside_queued
      have hsame := @get_swap_unchanged card NET_QUEUE_RX .queued_pkt
      rcases hr : network_queue_get_swap NET_QUEUE_RX .queued_pkt card with ⟨next, res⟩
      rw [hr] at hget hsame
      cases res with
      | false =>
        obtain rfl := hsame rfl
        exact goes_follows .transmit fun _ => nofun
      | true =>
        obtain ⟨hmoved, hlogs, ⟨rest, hfirst, hcontents⟩, -⟩ := hget rfl
        have hview := view_of_logs hlogs
        rw [hcontents] at hview
        refine ⟨hmoved, .single ?_⟩
        change Passes (view card) { view next with pc := .offer i }
        rw [hview]
        exact Passes.fetches (view card) _ rest i hlen hfirst
    · exact goes_follows (.offer i) fun _ _ => hlen
  case h_3 i hpc =>
    cases verdict with
    | false =>
      exact ⟨moved_of_data fun _ => rfl, .single (Passes.refuses (view card) i hpc)⟩
    | true =>
      exact ⟨moved_of_data fun slot => data_setLen _ _ _ slot,
        .single (Passes.takes (view card) i (i + 1) hpc)⟩
  case h_4 hpc => exact (goes_follows .idle fun _ => nofun).trans (transmit_follows 16)

end

/-! ## Every run -/

section

variable {buffer : Slot → Nat} (len : Nat → Int) (mem : Nat → List Byte)

end

end blumach.network
