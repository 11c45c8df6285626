-- The laws of the list of pages to purge. Page 0 ends the list, so it can never stand
-- in it, and the first page that is added marks page 0 as one of the list. What no
-- step does to page 0 keeps the other pages right.
import BluMach.EvictList
import BluMach.LinkedList

namespace blumach.evict_list

open linked_list

/-! ## What the list should be -/

/-- A page number as a link, where 0 is the end. -/
def link (p : Nat) : Option Nat := if p = 0 then none else some p

def nextLink (s : EvictState) (p : Nat) : Option Nat := link (s.pages p).evict_next

def prevLink (s : EvictState) (p : Nat) : Option Nat := (s.pages p).evict_prev.bind link

def InList (s : EvictState) (p : Nat) : Prop := page_in_evict_list (s.pages p) = true

/-- The pages of `l`, each once, are those from the head on, back from the last one
stand the same in reverse, and the count is their number. -/
structure Visits (s : EvictState) (l : List Nat) : Prop where
  forwards : Walk (nextLink s) (link s.purgable_page_list_head) l
  backwards : Walk (prevLink s) l.getLast? l.reverse
  nodup : l.Nodup
  count : s.purgeable_page_count = l.length

def Right (s : EvictState) : Prop := ∃ l, Visits s l ∧ ∀ p, p ∈ l ↔ InList s p

/-- The same, but for the mark of page 0. -/
def RightBeyondZero (s : EvictState) : Prop :=
  ∃ l, Visits s l ∧ ∀ p, p ≠ 0 → (p ∈ l ↔ InList s p)

/-- The step calls `page_add_to_evict_list`. -/
def Adds (pages_sz : Nat) (s : EvictState) : Op → Prop
  | .add _ => True
  | .invalidate start_addr end_addr =>
    ∃ k : Nat, (∀ i ≤ k, alignDown start_addr + BitVec.ofNat 32 (i * 0x1000) ≤
        alignDown (end_addr + 63)) ∧
      ((alignDown start_addr + BitVec.ofNat 32 (k * 0x1000)) >>> 12).toNat < pages_sz ∧
      ¬InList s ((alignDown start_addr + BitVec.ofNat 32 (k * 0x1000)) >>> 12).toNat
  | _ => False

/-- The step adds page 0 or removes it. -/
def MovesZero (pages_sz : Nat) (s : EvictState) : Op → Prop
  | .add page => page = 0
  | .remove page => page = 0
  | .invalidate start_addr end_addr =>
    (alignDown start_addr >>> 12).toNat = 0 ∧ alignDown start_addr ≤ alignDown (end_addr + 63) ∧
      0 < pages_sz ∧ ¬InList s 0
  | .flush page => page = 0 ∧ removeFromEvictList (s.pages 0).toMasks = true
  | .marks _ _ => False

theorem link_ne_zero {p q : Nat} (h : link p = some q) : q ≠ 0 := by
  unfold link at h
  split at h
  · exact absurd h (by simp)
  · rename_i hp
    rwa [← Option.some.inj h]

theorem link_of_ne {p : Nat} (h : p ≠ 0) : link p = some p := by
  unfold link
  rw [if_neg h]

/-- A store through a link that may be the end of the list. -/
theorem setOpt_link {β : Type} (f : Nat → β) (p : Nat) (v : β) (q : Nat) :
    setOpt f (link p) v q = if p ≠ 0 ∧ q = p then v else f q := by
  unfold link
  by_cases hp : p = 0
  · rw [if_pos hp, if_neg fun h => h.1 hp]
    exact setOpt_of_ne f none v q nofun
  · rw [if_neg hp]
    by_cases hq : q = p
    · rw [if_pos ⟨hp, hq⟩, hq, setOpt_some]
    · rw [if_neg fun h => hq h.2]
      exact setOpt_of_ne f (some p) v q fun h => hq (Option.some.inj h).symm

/-- The end of the list is not visited. -/
theorem Visits.not_zero {s : EvictState} {l : List Nat} (h : Visits s l) : 0 ∉ l := by
  have hwalk : ∀ {o : Option Nat} {l : List Nat}, (∀ q, o = some q → q ≠ 0) →
      Walk (nextLink s) o l → 0 ∉ l := by
    intro o l ho hw
    induction l generalizing o with
    | nil => simp
    | cons a l ih =>
      obtain ⟨ha, hw⟩ := hw
      rw [List.mem_cons, not_or]
      exact ⟨(ho a ha).symm, ih (fun q hq => link_ne_zero hq) hw⟩
  exact hwalk (fun q hq => link_ne_zero hq) h.forwards

theorem Right.zero_not_in {s : EvictState} (h : Right s) : ¬InList s 0 := by
  obtain ⟨l, hv, hl⟩ := h
  exact fun h0 => hv.not_zero ((hl 0).mpr h0)

theorem Visits.isList {s : EvictState} {l : List Nat} (h : Visits s l) :
    IsList (nextLink s) (prevLink s) (link s.purgable_page_list_head) l.getLast? l :=
  isList_of_walks h.forwards h.backwards h.nodup

theorem visits_of_isList {s : EvictState} {l : List Nat}
    (h : IsList (nextLink s) (prevLink s) (link s.purgable_page_list_head) l.getLast? l)
    (hc : s.purgeable_page_count = l.length) : Visits s l :=
  ⟨h.walk_next, h.walk_prev, h.nodup, hc⟩

/-! ## Stores -/

section

variable (p q : Nat) (s : EvictState)

@[simp] theorem setPrev_self (prev : Option Nat) :
    (setPrev p prev s).pages p = { s.pages p with evict_prev := prev } := by
  simp [setPrev]

@[simp] theorem setNext_self (next : Nat) :
    (setNext p next s).pages p = { s.pages p with evict_next := next } := by
  simp [setNext]

@[simp] theorem setPrev_next (prev : Option Nat) :
    ((setPrev p prev s).pages q).evict_next = (s.pages q).evict_next := by
  unfold setPrev
  by_cases h : q = p
  · subst h
    simp
  · simp [h]

@[simp] theorem setNext_prev (next : Nat) :
    ((setNext p next s).pages q).evict_prev = (s.pages q).evict_prev := by
  unfold setNext
  by_cases h : q = p
  · subst h
    simp
  · simp [h]

theorem setPrev_prev (prev : Option Nat) : ((setPrev p prev s).pages q).evict_prev =
    if q = p then prev else (s.pages q).evict_prev := by
  unfold setPrev
  by_cases h : q = p
  · subst h
    simp
  · simp [h]

theorem setNext_next (next : Nat) : ((setNext p next s).pages q).evict_next =
    if q = p then next else (s.pages q).evict_next := by
  unfold setNext
  by_cases h : q = p
  · subst h
    simp
  · simp [h]

@[simp] theorem setPrev_head (prev : Option Nat) :
    (setPrev p prev s).purgable_page_list_head = s.purgable_page_list_head := rfl

@[simp] theorem setPrev_count (prev : Option Nat) :
    (setPrev p prev s).purgeable_page_count = s.purgeable_page_count := rfl

@[simp] theorem setNext_head (next : Nat) :
    (setNext p next s).purgable_page_list_head = s.purgable_page_list_head := rfl

@[simp] theorem setNext_count (next : Nat) :
    (setNext p next s).purgeable_page_count = s.purgeable_page_count := rfl

@[simp] theorem setMasks_prev (m : Masks) :
    ((setMasks p m s).pages q).evict_prev = (s.pages q).evict_prev := by
  unfold setMasks
  by_cases h : q = p
  · subst h
    simp
  · simp [h]

@[simp] theorem setMasks_next (m : Masks) :
    ((setMasks p m s).pages q).evict_next = (s.pages q).evict_next := by
  unfold setMasks
  by_cases h : q = p
  · subst h
    simp
  · simp [h]

end

/-- The links, the head and the count are the same. -/
structure SameList (s s' : EvictState) : Prop where
  evict_prev : ∀ p, (s'.pages p).evict_prev = (s.pages p).evict_prev
  evict_next : ∀ p, (s'.pages p).evict_next = (s.pages p).evict_next
  head : s'.purgable_page_list_head = s.purgable_page_list_head
  count : s'.purgeable_page_count = s.purgeable_page_count

theorem setMasks_same (p : Nat) (m : Masks) (s : EvictState) : SameList s (setMasks p m s) :=
  ⟨fun q => setMasks_prev p q s m, fun q => setMasks_next p q s m, rfl, rfl⟩

section

variable {s s' : EvictState}

theorem SameList.inList (h : SameList s s') (p : Nat) : InList s' p ↔ InList s p := by
  unfold InList page_in_evict_list
  rw [h.evict_prev]

theorem SameList.visits (h : SameList s s') {l : List Nat} (hv : Visits s l) : Visits s' l := by
  have hn : nextLink s' = nextLink s := by
    funext p
    unfold nextLink
    rw [h.evict_next]
  have hp : prevLink s' = prevLink s := by
    funext p
    unfold prevLink
    rw [h.evict_prev]
  obtain ⟨h1, h2, h3, h4⟩ := hv
  refine ⟨?_, ?_, h3, ?_⟩
  · rw [hn, h.head]
    exact h1
  · rw [hp]
    exact h2
  · rw [h.count]
    exact h4

theorem SameList.beyondZero (h : SameList s s') (hr : RightBeyondZero s) :
    RightBeyondZero s' := by
  obtain ⟨l, hv, hl⟩ := hr
  refine ⟨l, h.visits hv, ?_⟩
  intro p hp
  rw [h.inList, hl p hp]

end

/-! ## One page -/

theorem inList_iff {s : EvictState} {p : Nat} : InList s p ↔ (s.pages p).evict_prev ≠ none := by
  unfold InList page_in_evict_list
  rw [Option.isSome_iff_ne_none]

/-- The page is in the list now, and so is the page that was the head, or page 0. -/
theorem add_prev (page q : Nat) (s : EvictState) :
    ((page_add_to_evict_list page s).pages q).evict_prev =
      if q = page then some 0
      else if q = s.purgable_page_list_head then some page else (s.pages q).evict_prev := by
  unfold page_add_to_evict_list
  simp only [setPrev_prev, setNext_prev]

theorem add_next (page q : Nat) (s : EvictState) :
    ((page_add_to_evict_list page s).pages q).evict_next =
      if q = page then s.purgable_page_list_head else (s.pages q).evict_next := by
  unfold page_add_to_evict_list
  simp only [setPrev_next, setNext_next]
  rfl

theorem add_head {page : Nat} {s : EvictState} (h : page ≠ s.purgable_page_list_head) :
    (page_add_to_evict_list page s).purgable_page_list_head = page := by
  have hne : ¬s.purgable_page_list_head = page := fun he => h he.symm
  unfold page_add_to_evict_list
  simp only [setPrev_prev, setNext_prev]
  simp [setPrev, setNext, hne]

theorem add_inList (page q : Nat) (s : EvictState) :
    InList (page_add_to_evict_list page s) q ↔
      q = page ∨ q = s.purgable_page_list_head ∨ InList s q := by
  rw [inList_iff, inList_iff, add_prev]
  by_cases h1 : q = page
  · simp [h1]
  · rw [if_neg h1]
    by_cases h2 : q = s.purgable_page_list_head
    · simp [h2]
    · rw [if_neg h2]
      simp [h1, h2]

theorem add_beyondZero {page : Nat} {s : EvictState} (hr : RightBeyondZero s) (h0 : page ≠ 0)
    (hnot : ¬InList s page) : RightBeyondZero (page_add_to_evict_list page s) := by
  obtain ⟨l, hv, hl⟩ := hr
  have hmem : page ∉ l := fun hm => hnot ((hl page h0).mp hm)
  have hlist := hv.isList
  have hhead : link s.purgable_page_list_head = l.head? := hlist.head_eq
  have hne : page ≠ s.purgable_page_list_head := by
    intro he
    have hz : s.purgable_page_list_head ≠ 0 := he ▸ h0
    rw [link_of_ne hz, ← he] at hhead
    exact hmem (List.mem_of_mem_head? hhead.symm)
  have hlist' : IsList (nextLink s) (prevLink s) (link s.purgable_page_list_head) l.getLast?
      ([] ++ l) := hlist
  have hins := hlist'.insert hmem
  refine ⟨page :: l, visits_of_isList ?_ ?_, ?_⟩
  · rw [add_head hne, link_of_ne h0]
    have hlast : (page :: l).getLast? = l.getLast?.or (some page) := by
      rw [List.getLast?_cons]
      cases l.getLast? with
      | none => rfl
      | some b => rfl
    rw [hlast]
    apply hins.congr
    · intro q hq
      unfold nextLink
      rw [add_next]
      by_cases hqp : q = page
      · rw [if_pos hqp, hqp, Function.update_self, hhead]
      · rw [if_neg hqp, Function.update_of_ne hqp]
        rfl
    · intro q hq
      unfold prevLink
      rw [add_prev]
      by_cases hqp : q = page
      · rw [if_pos hqp, hqp, Function.update_self]
        rfl
      · rw [if_neg hqp, Function.update_of_ne hqp]
        have hql : q ∈ l := (List.mem_cons.mp hq).resolve_left hqp
        have hq0 : q ≠ 0 := fun h => hv.not_zero (h ▸ hql)
        rw [← hhead, setOpt_link]
        by_cases hqh : q = s.purgable_page_list_head
        · rw [if_pos hqh, if_pos ⟨hqh ▸ hq0, hqh⟩]
          exact link_of_ne h0
        · rw [if_neg hqh, if_neg fun h => hqh h.2]
  · have hc : (page_add_to_evict_list page s).purgeable_page_count =
        s.purgeable_page_count + 1 := rfl
    rw [hc, hv.count, List.length_cons]
    rfl
  · intro q hq
    rw [add_inList, List.mem_cons, hl q hq]
    constructor
    · rintro (h | h)
      · exact Or.inl h
      · exact Or.inr (Or.inr h)
    · rintro (h | h | h)
      · exact Or.inl h
      · have hh : l.head? = some q := by
          rw [← hhead, ← h, link_of_ne hq]
        exact Or.inr ((hl q hq).mp (List.mem_of_mem_head? hh))
      · exact Or.inr h

/-- The two neighbours, or the head, are joined. -/
theorem remove_spec {page prev : Nat} {s s' : EvictState}
    (hprev : (s.pages page).evict_prev = some prev) (hp : prev ≠ page)
    (h : page_remove_from_evict_list page s = some s') :
    (∀ q, (s'.pages q).evict_next =
      if prev ≠ 0 ∧ q = prev then (s.pages page).evict_next else (s.pages q).evict_next) ∧
    (∀ q, (s'.pages q).evict_prev =
      if q = page then none
      else if (s.pages page).evict_next ≠ 0 ∧ q = (s.pages page).evict_next then some prev
      else (s.pages q).evict_prev) ∧
    s'.purgable_page_list_head =
      (if prev = 0 then (s.pages page).evict_next else s.purgable_page_list_head) ∧
    s'.purgeable_page_count = s.purgeable_page_count - 1 := by
  unfold page_remove_from_evict_list at h
  rw [hprev] at h
  obtain rfl := Option.some.inj h
  by_cases hp0 : prev = 0
  · by_cases hn0 : (s.pages page).evict_next = 0
    · simp [hp0, hn0, setPrev_prev, setPrev_next]
    · simp [hp0, hn0, setPrev_prev, setPrev_next, hprev]
  · have hpp : ¬page = prev := fun he => hp he.symm
    by_cases hn0 : (s.pages page).evict_next = 0
    · simp [hp0, hn0, hpp, setPrev_prev, setPrev_next, setNext_next, setNext_prev]
    · simp [hp0, hn0, hpp, setPrev_prev, setPrev_next, setNext_next, setNext_prev, hprev]

/-- Removal from the middle of the list, or from an end. -/
theorem remove_beyondZero {page : Nat} {s s' : EvictState} (hr : RightBeyondZero s)
    (h0 : page ≠ 0) (h : page_remove_from_evict_list page s = some s') : RightBeyondZero s' := by
  obtain ⟨l, hv, hl⟩ := hr
  cases hprev : (s.pages page).evict_prev with
  | none =>
    unfold page_remove_from_evict_list at h
    rw [hprev] at h
    exact absurd h (by simp)
  | some prev =>
    have hin : page ∈ l := by
      rw [hl page h0, inList_iff, hprev]
      simp
    obtain ⟨l₁, l₂, rfl⟩ := List.append_of_mem hin
    have hlist := hv.isList
    obtain ⟨hp, hn⟩ := seg_mid hlist.seg
    rw [Option.or_none] at hp hn
    have hprevl : link prev = l₁.getLast? := by
      rw [← hp]
      unfold prevLink
      rw [hprev]
      rfl
    have hnextl : link (s.pages page).evict_next = l₂.head? := hn
    have hnd := hv.nodup
    rw [List.nodup_middle, List.nodup_cons] at hnd
    have hmem : ∀ q, q ∈ l₁ ++ page :: l₂ ↔ q = page ∨ q ∈ l₁ ++ l₂ := by
      intro q
      simp only [List.mem_append, List.mem_cons]
      tauto
    have hne : prev ≠ page := by
      intro he
      rw [he, link_of_ne h0] at hprevl
      exact hnd.1 (List.mem_append.mpr (Or.inl (List.mem_of_mem_getLast? hprevl.symm)))
    obtain ⟨e1, e2, e3, e4⟩ := remove_spec hprev hne h
    refine ⟨l₁ ++ l₂, visits_of_isList ?_ ?_, ?_⟩
    · have hhead : link s'.purgable_page_list_head = l₁.head?.or l₂.head? := by
        have hh := hlist.head_eq
        rw [e3]
        by_cases hz : prev = 0
        · rw [if_pos hz, hnextl]
          rw [hz] at hprevl
          rw [List.getLast?_eq_none_iff.mp hprevl.symm]
          rfl
        · rw [if_neg hz, hh, List.head?_append]
          rw [link_of_ne hz] at hprevl
          cases l₁ with
          | nil => exact absurd hprevl (by simp)
          | cons a l₁ => rfl
      rw [hhead, List.getLast?_append]
      apply hlist.remove.congr
      · intro q hq
        unfold nextLink
        rw [e1, ← hprevl, setOpt_link]
        split_ifs
        · exact hnextl
        · rfl
      · intro q hq
        have hqne : q ≠ page := fun he => hnd.1 (he ▸ hq)
        unfold prevLink
        rw [e2, if_neg hqne, ← hnextl, setOpt_link]
        split_ifs
        · exact hprevl
        · rfl
    · rw [e4, hv.count]
      simp only [List.length_append, List.length_cons]
      omega
    · intro q hq
      rw [inList_iff, e2]
      by_cases hqp : q = page
      · rw [if_pos hqp, hqp]
        simp [hnd.1]
      · rw [if_neg hqp]
        have hold := (hmem q).symm.trans (hl q hq)
        rw [or_iff_right hqp] at hold
        by_cases hqn : (s.pages page).evict_next ≠ 0 ∧ q = (s.pages page).evict_next
        · rw [if_pos hqn]
          rw [← hqn.2, link_of_ne hq] at hnextl
          simp [List.mem_of_mem_head? hnextl.symm]
        · rw [if_neg hqn, hold, inList_iff]

/-! ## The walks -/

theorem invalidatePage_of_ge {pages_sz page : Nat} (s : EvictState) (h : pages_sz ≤ page) :
    invalidatePage pages_sz page s = s := by
  unfold invalidatePage
  rw [if_pos h]

/-- The page is added unless it is in the list. -/
theorem invalidatePage_of_lt {pages_sz page : Nat} (s : EvictState) (h : page < pages_sz) :
    ∃ s₁, SameList s s₁ ∧
      invalidatePage pages_sz page s =
        if page_in_evict_list (s.pages page) then s₁ else page_add_to_evict_list page s₁ := by
  refine ⟨setMasks page
    { (s.pages page).toMasks with
      dirty_mask := BitVec.allOnes 64
      byte_dirty_mask :=
        if (s.pages page).has_byte_mask then fun _ => BitVec.allOnes 64
        else (s.pages page).byte_dirty_mask } s, setMasks_same page _ s, ?_⟩
  unfold invalidatePage
  rw [if_neg (Nat.not_le.mpr h)]
  have hin : ∀ m, page_in_evict_list ((setMasks page m s).pages page) =
      page_in_evict_list (s.pages page) := by
    intro m
    unfold page_in_evict_list
    rw [setMasks_prev]
  dsimp only
  rw [hin]

theorem invalidatePage_beyondZero {pages_sz page : Nat} {s : EvictState}
    (hr : RightBeyondZero s) (h : page = 0 → 0 < pages_sz → InList s 0) :
    RightBeyondZero (invalidatePage pages_sz page s) := by
  rcases Nat.lt_or_ge page pages_sz with hlt | hge
  · obtain ⟨s₁, hsame, he⟩ := invalidatePage_of_lt s hlt
    rw [he]
    split
    · exact hsame.beyondZero hr
    · rename_i hnot
      have hp : page ≠ 0 := by
        intro hp
        rw [hp] at hnot hlt
        exact hnot (h hp hlt)
      apply add_beyondZero (hsame.beyondZero hr) hp
      rw [hsame.inList]
      exact hnot
  · rw [invalidatePage_of_ge s hge]
    exact hr

/-- No page leaves the list. -/
theorem invalidatePage_keeps {pages_sz page q : Nat} {s : EvictState} (h : InList s q) :
    InList (invalidatePage pages_sz page s) q := by
  rcases Nat.lt_or_ge page pages_sz with hlt | hge
  · obtain ⟨s₁, hsame, he⟩ := invalidatePage_of_lt s hlt
    rw [he]
    split
    · exact (hsame.inList q).mpr h
    · rw [add_inList, hsame.inList]
      exact Or.inr (Or.inr h)
  · rw [invalidatePage_of_ge s hge]
    exact h

section

variable {pages_sz fuel : Nat} {start_addr end_addr : BitVec 32} {s s' : EvictState}

theorem invalidateLoop_stop (h : ¬start_addr ≤ end_addr) :
    invalidateLoop pages_sz fuel start_addr end_addr s = some s := by
  unfold invalidateLoop
  rw [if_neg h]

theorem invalidateLoop_next (h : start_addr ≤ end_addr) :
    invalidateLoop pages_sz (fuel + 1) start_addr end_addr s =
      invalidateLoop pages_sz fuel (start_addr + 0x1000) end_addr
        (invalidatePage pages_sz (start_addr >>> 12).toNat s) := by
  rw [invalidateLoop, if_pos h]

theorem invalidateLoop_fuel (h : start_addr ≤ end_addr)
    (hs : invalidateLoop pages_sz fuel start_addr end_addr s = some s') :
    ∃ n, fuel = n + 1 := by
  cases fuel with
  | zero =>
    unfold invalidateLoop at hs
    rw [if_pos h] at hs
    exact absurd hs (by simp)
  | succ n => exact ⟨n, rfl⟩

/-- Past the last page the address comes round to the first one, and never passes the end. -/
theorem invalidateLoop_wraps (h : ∀ a : BitVec 32, a.toNat % 0x1000 = start_addr.toNat % 0x1000 →
    a ≤ end_addr) : invalidateLoop pages_sz fuel start_addr end_addr s = none := by
  induction fuel generalizing start_addr s with
  | zero =>
    unfold invalidateLoop
    rw [if_pos (h start_addr rfl)]
  | succ fuel ih =>
    rw [invalidateLoop_next (h start_addr rfl)]
    apply ih
    intro a ha
    apply h a
    rw [ha, BitVec.toNat_add]
    simp

/-- A loop that ends has not come round. -/
theorem invalidateLoop_no_wrap (h : start_addr ≤ end_addr)
    (hs : invalidateLoop pages_sz fuel start_addr end_addr s = some s') :
    (start_addr + 0x1000).toNat = start_addr.toNat + 0x1000 := by
  rw [BitVec.toNat_add, Nat.mod_eq_of_lt]
  · rfl
  · by_contra hge
    rw [invalidateLoop_wraps] at hs
    · exact absurd hs (by simp)
    · intro a ha
      have h1 : (0x1000 : BitVec 32).toNat = 4096 := by rfl
      rw [BitVec.le_def] at h ⊢
      have := a.isLt
      omega

/-- From the end of a loop back to its start, one page after another. -/
theorem invalidateLoop_induction {motive : BitVec 32 → EvictState → Prop}
    (hs : invalidateLoop pages_sz fuel start_addr end_addr s = some s')
    (stop : ∀ a, ¬a ≤ end_addr → motive a s')
    (next : ∀ a s, a ≤ end_addr → (a + 0x1000).toNat = a.toNat + 0x1000 →
      motive (a + 0x1000) (invalidatePage pages_sz (a >>> 12).toNat s) → motive a s) :
    motive start_addr s := by
  induction fuel generalizing start_addr s with
  | zero =>
    by_cases hle : start_addr ≤ end_addr
    · obtain ⟨n, hn⟩ := invalidateLoop_fuel hle hs
      exact absurd hn (Nat.succ_ne_zero n).symm
    · rw [invalidateLoop_stop hle] at hs
      obtain rfl := Option.some.inj hs
      exact stop start_addr hle
  | succ fuel ih =>
    by_cases hle : start_addr ≤ end_addr
    · have hnext := invalidateLoop_no_wrap hle hs
      rw [invalidateLoop_next hle] at hs
      exact next start_addr s hle hnext (ih hs)
    · rw [invalidateLoop_stop hle] at hs
      obtain rfl := Option.some.inj hs
      exact stop start_addr hle

theorem invalidateLoop_beyondZero
    (hs : invalidateLoop pages_sz fuel start_addr end_addr s = some s') (hr : RightBeyondZero s)
    (h : (start_addr >>> 12).toNat = 0 → start_addr ≤ end_addr → 0 < pages_sz → InList s 0) :
    RightBeyondZero s' := by
  refine @invalidateLoop_induction _ _ _ _ _ _
    (fun a s => RightBeyondZero s →
      ((a >>> 12).toNat = 0 → a ≤ end_addr → 0 < pages_sz → InList s 0) → RightBeyondZero s')
    hs (fun _ _ hr _ => hr) ?_ hr h
  intro a s hle hnext ih hr h
  apply ih (invalidatePage_beyondZero hr fun hz hsz => h hz hle hsz)
  intro hz
  rw [BitVec.toNat_ushiftRight, hnext, Nat.shiftRight_eq_div_pow] at hz
  omega

theorem invalidateLoop_keeps {q : Nat}
    (hs : invalidateLoop pages_sz fuel start_addr end_addr s = some s') (h : InList s q) :
    InList s' q :=
  @invalidateLoop_induction _ _ _ _ _ _ (fun _ s => InList s q → InList s' q) hs
    (fun _ _ h => h) (fun _ _ _ _ ih h => ih (invalidatePage_keeps h)) h

end

/-- The first page that is added to an empty list takes page 0 with it. -/
theorem Empty.add {page : Nat} {s s₁ : EvictState} (h : Empty s) (hsame : SameList s s₁) :
    InList (page_add_to_evict_list page s₁) 0 := by
  rw [add_inList, hsame.head, h.head]
  exact Or.inr (Or.inl rfl)

theorem Empty.not_inList {s : EvictState} (h : Empty s) (p : Nat) : ¬InList s p := by
  rw [inList_iff, h.evict_prev]
  simp

theorem Empty.right {s : EvictState} (h : Empty s) : Right s := by
  refine ⟨[], ⟨?_, rfl, List.nodup_nil, ?_⟩, ?_⟩
  · rw [h.head]
    rfl
  · rw [h.count]
    rfl
  · intro p
    simp [h.not_inList p]

theorem Empty.same {s s' : EvictState} (h : Empty s) (hsame : SameList s s') : Empty s' := by
  refine ⟨?_, ?_, ?_⟩
  · intro p
    rw [hsame.evict_prev, h.evict_prev]
  · rw [hsame.head, h.head]
  · rw [hsame.count, h.count]

/-- Address number `k` of the walk is in range. -/
def InRange (start_addr end_addr : BitVec 32) (k : Nat) : Prop :=
  ∀ i ≤ k, start_addr + BitVec.ofNat 32 (i * 0x1000) ≤ end_addr

theorem InRange.first {start_addr end_addr : BitVec 32} {k : Nat}
    (h : InRange start_addr end_addr k) : start_addr ≤ end_addr := by
  have := h 0 (Nat.zero_le k)
  simpa using this

theorem next_addr (start_addr : BitVec 32) (i : Nat) :
    start_addr + 0x1000 + BitVec.ofNat 32 (i * 0x1000) =
      start_addr + BitVec.ofNat 32 ((i + 1) * 0x1000) := by
  rw [Nat.succ_mul, BitVec.ofNat_add, BitVec.add_assoc, BitVec.add_comm 0x1000]
  rfl

theorem inRange_succ {start_addr end_addr : BitVec 32} {k : Nat} :
    InRange start_addr end_addr (k + 1) ↔
      start_addr ≤ end_addr ∧ InRange (start_addr + 0x1000) end_addr k := by
  constructor
  · intro h
    refine ⟨h.first, ?_⟩
    intro i hi
    rw [next_addr]
    exact h (i + 1) (by omega)
  · rintro ⟨h0, h⟩ i hi
    cases i with
    | zero => simpa using h0
    | succ i =>
      rw [← next_addr]
      exact h i (by omega)

/-- A walk over some page of the table adds to an empty list. -/
theorem invalidateLoop_adds {pages_sz fuel k : Nat} {start_addr end_addr : BitVec 32}
    {s s' : EvictState} (he : Empty s) (hk : InRange start_addr end_addr k)
    (hp : ((start_addr + BitVec.ofNat 32 (k * 0x1000)) >>> 12).toNat < pages_sz)
    (hs : invalidateLoop pages_sz fuel start_addr end_addr s = some s') : InList s' 0 := by
  induction k generalizing start_addr fuel s with
  | zero =>
    obtain ⟨n, rfl⟩ := invalidateLoop_fuel hk.first hs
    rw [invalidateLoop_next hk.first] at hs
    have hlt : (start_addr >>> 12).toNat < pages_sz := by simpa using hp
    obtain ⟨s₁, hsame, hadd⟩ := invalidatePage_of_lt s hlt
    rw [hadd, if_neg (show ¬page_in_evict_list _ = true from he.not_inList _)] at hs
    exact invalidateLoop_keeps hs (he.add hsame)
  | succ k ih =>
    obtain ⟨hle, hk⟩ := inRange_succ.mp hk
    obtain ⟨n, rfl⟩ := invalidateLoop_fuel hle hs
    rw [invalidateLoop_next hle] at hs
    rcases Nat.lt_or_ge (start_addr >>> 12).toNat pages_sz with hlt | hge
    · obtain ⟨s₁, hsame, hadd⟩ := invalidatePage_of_lt s hlt
      rw [hadd, if_neg (show ¬page_in_evict_list _ = true from he.not_inList _)] at hs
      exact invalidateLoop_keeps hs (he.add hsame)
    · rw [invalidatePage_of_ge s hge] at hs
      rw [← next_addr] at hp
      exact ih he hk hp hs

/-- A walk over no page of the table does nothing. -/
theorem invalidateLoop_idle {pages_sz fuel : Nat} {start_addr end_addr : BitVec 32}
    {s s' : EvictState} (h : ∀ k, InRange start_addr end_addr k →
      ¬((start_addr + BitVec.ofNat 32 (k * 0x1000)) >>> 12).toNat < pages_sz)
    (hs : invalidateLoop pages_sz fuel start_addr end_addr s = some s') : s' = s := by
  refine @invalidateLoop_induction _ _ _ _ _ _
    (fun a s => (∀ k, InRange a end_addr k →
      ¬((a + BitVec.ofNat 32 (k * 0x1000)) >>> 12).toNat < pages_sz) → s' = s)
    hs (fun _ _ _ => rfl) ?_ h
  intro a s hle _ ih h
  have h0 : InRange a end_addr 0 := by
    intro i hi
    rw [Nat.le_zero.mp hi]
    simpa using hle
  have hge : pages_sz ≤ (a >>> 12).toNat := by
    have := h 0 h0
    simpa using this
  rw [invalidatePage_of_ge s hge] at ih
  apply ih
  intro k hk
  rw [next_addr]
  exact h (k + 1) (inRange_succ.mpr ⟨hle, hk⟩)

/-! ## Runs -/

section

variable {pages_sz : Nat} {s s' : EvictState} {op : Op}

theorem flush_cases {page : Nat} (h : codegen_check_flush page s = some s') :
    ∃ s₁, SameList s s₁ ∧
      ((removeFromEvictList (s.pages page).toMasks = true ∧
          page_remove_from_evict_list page s₁ = some s') ∨
        (removeFromEvictList (s.pages page).toMasks = false ∧ s' = s₁)) := by
  refine ⟨_, setMasks_same page (flushMasks (s.pages page).toMasks) s, ?_⟩
  unfold codegen_check_flush at h
  dsimp only at h
  split at h
  · rename_i hrem
    exact Or.inl ⟨hrem, h⟩
  · rename_i hrem
    exact Or.inr ⟨Bool.not_eq_true _ ▸ hrem, (Option.some.inj h).symm⟩

theorem remove_inList {page : Nat} (h : page_remove_from_evict_list page s = some s') :
    InList s page := by
  rw [inList_iff]
  intro hn
  unfold page_remove_from_evict_list at h
  rw [hn] at h
  exact absurd h (by simp)

/-- A step that adds no page to the empty list leaves it empty. -/
theorem Empty.step (he : Empty s) (h : step pages_sz op s = some s')
    (hno : ¬Adds pages_sz s op) : Empty s' := by
  cases op with
  | add page => exact absurd trivial hno
  | remove page => exact absurd (remove_inList h) (he.not_inList page)
  | invalidate start_addr end_addr =>
    rw [invalidateLoop_idle _ h]
    · exact he
    · intro k hk hlt
      exact hno ⟨k, hk, hlt, he.not_inList _⟩
  | flush page =>
    obtain ⟨s₁, hsame, ⟨-, hrem⟩ | ⟨-, rfl⟩⟩ := flush_cases h
    · exact absurd (remove_inList hrem) ((he.same hsame).not_inList page)
    · exact he.same hsame
  | marks page m =>
    obtain rfl := Option.some.inj h
    exact he.same (setMasks_same page m s)

/-- A step that adds a page to the empty list marks page 0. -/
theorem Empty.adds (he : Empty s) (h : evict_list.step pages_sz op s = some s')
    (hadd : Adds pages_sz s op) : InList s' 0 := by
  cases op with
  | add page =>
    obtain rfl := Option.some.inj h
    exact he.add ⟨fun _ => rfl, fun _ => rfl, rfl, rfl⟩
  | remove page => exact absurd hadd (by simp [Adds])
  | invalidate start_addr end_addr =>
    obtain ⟨k, hk, hlt, -⟩ := hadd
    exact invalidateLoop_adds he hk hlt h
  | flush page => exact absurd hadd (by simp [Adds])
  | marks page m => exact absurd hadd (by simp [Adds])

theorem RightBeyondZero.step (hr : RightBeyondZero s) (hl : Legal pages_sz s op)
    (h : evict_list.step pages_sz op s = some s') (hz : ¬MovesZero pages_sz s op) :
    RightBeyondZero s' := by
  cases op with
  | add page =>
    obtain rfl := Option.some.inj h
    apply add_beyondZero hr hz
    unfold InList
    rw [hl.2]
    simp
  | remove page => exact remove_beyondZero hr hz h
  | invalidate start_addr end_addr =>
    apply invalidateLoop_beyondZero h hr
    intro h1 h2 h3
    by_contra hnot
    exact hz ⟨h1, h2, h3, hnot⟩
  | flush page =>
    obtain ⟨s₁, hsame, ⟨hrem, hs⟩ | ⟨-, rfl⟩⟩ := flush_cases h
    · apply remove_beyondZero (hsame.beyondZero hr) _ hs
      rintro rfl
      exact hz ⟨rfl, hrem⟩
    · exact hsame.beyondZero hr
  | marks page m =>
    obtain rfl := Option.some.inj h
    exact (setMasks_same page m s).beyondZero hr

theorem Empty.beyondZero (h : Empty s) : RightBeyondZero s := by
  obtain ⟨l, hv, hl⟩ := h.right
  exact ⟨l, hv, fun p _ => hl p⟩

theorem run_empty {l : List (EvictState × Op)} (h : Run pages_sz l s)
    (hno : ∀ x ∈ l, ¬Adds pages_sz x.1 x.2) : Empty s ∧ ∀ x ∈ l, Right x.1 := by
  induction h with
  | start he => exact ⟨he, by simp⟩
  | step hrun hl hs ih =>
    obtain ⟨he, hright⟩ := ih fun x hx => hno x (List.mem_append_left _ hx)
    refine ⟨he.step hs (hno _ List.mem_concat_self), ?_⟩
    intro x hx
    rcases List.mem_append.mp hx with hx | hx
    · exact hright x hx
    · rw [List.mem_singleton.mp hx]
      exact he.right

theorem run_right {l : List (EvictState × Op)} (h : Run pages_sz l s)
    (hright : ∀ x ∈ l, Right x.1) (hs : Right s) : ∀ x ∈ l, ¬Adds pages_sz x.1 x.2 := by
  induction h with
  | start he => simp
  | step hrun hl hstep ih =>
    have hno := ih (fun x hx => hright x (List.mem_append_left _ hx))
      (hright _ List.mem_concat_self)
    intro x hx
    rcases List.mem_append.mp hx with hx | hx
    · exact hno x hx
    · rw [List.mem_singleton.mp hx]
      intro hadd
      exact hs.zero_not_in ((run_empty hrun hno).1.adds hstep hadd)

theorem run_beyondZero {l : List (EvictState × Op)} (h : Run pages_sz l s)
    (hno : ∀ x ∈ l, ¬MovesZero pages_sz x.1 x.2) :
    RightBeyondZero s ∧ ∀ x ∈ l, RightBeyondZero x.1 := by
  induction h with
  | start he => exact ⟨he.beyondZero, by simp⟩
  | step hrun hl hs ih =>
    obtain ⟨hr, hall⟩ := ih fun x hx => hno x (List.mem_append_left _ hx)
    refine ⟨hr.step hl hs (hno _ List.mem_concat_self), ?_⟩
    intro x hx
    rcases List.mem_append.mp hx with hx | hx
    · exact hall x hx
    · rw [List.mem_singleton.mp hx]
      exact hr

/-- The list is right in every state of a run just when the run never adds a page. While
no step moves page 0, only the mark of page 0 is wrong. -/
theorem the_list_is_right_until_a_page_is_added {l : List (EvictState × Op)}
    (h : Run pages_sz l s) :
    (((∀ x ∈ l, Right x.1) ∧ Right s) ↔ ∀ x ∈ l, ¬Adds pages_sz x.1 x.2) ∧
    ((∀ x ∈ l, ¬MovesZero pages_sz x.1 x.2) →
      (∀ x ∈ l, RightBeyondZero x.1) ∧ RightBeyondZero s) := by
  refine ⟨⟨fun hr => run_right h hr.1 hr.2, fun hno => ?_⟩, fun hno => ?_⟩
  · obtain ⟨he, hright⟩ := run_empty h hno
    exact ⟨hright, he.right⟩
  · obtain ⟨hr, hall⟩ := run_beyondZero h hno
    exact ⟨hall, hr⟩

end

def afterReset : EvictState where
  pages _ := ⟨⟨0, 0, fun _ => 0, fun _ => 0, true⟩, none, 0⟩
  purgable_page_list_head := 0
  purgeable_page_count := 0

theorem afterReset_empty : Empty afterReset := ⟨fun _ => rfl, rfl, rfl⟩

/-- Two pages are added, and stand in the list. -/
theorem two_pages_stand_in_the_list :
    Run 16 [(afterReset, .add 5), (page_add_to_evict_list 5 afterReset, .add 7)]
      (page_add_to_evict_list 7 (page_add_to_evict_list 5 afterReset)) ∧
    RightBeyondZero (page_add_to_evict_list 7 (page_add_to_evict_list 5 afterReset)) := by
  have h1 : Run 16 [(afterReset, .add 5)] (page_add_to_evict_list 5 afterReset) :=
    Run.step (Run.start afterReset_empty) ⟨by omega, rfl⟩ rfl
  have h2 : Run 16 [(afterReset, .add 5), (page_add_to_evict_list 5 afterReset, .add 7)]
      (page_add_to_evict_list 7 (page_add_to_evict_list 5 afterReset)) :=
    Run.step h1 ⟨by omega, rfl⟩ rfl
  refine ⟨h2, ((the_list_is_right_until_a_page_is_added h2).2 ?_).2⟩
  intro x hx
  simp only [List.mem_cons, List.not_mem_nil, or_false] at hx
  rcases hx with rfl | rfl
  · simp [MovesZero]
  · simp [MovesZero]

/-- Page 0 is in the list by its mark, and the list does not visit it. -/
theorem page_five_brings_page_zero : ∃ l s, Run 16 l s ∧ l.length = 1 ∧ ¬Right s := by
  have h : Run 16 [(afterReset, .add 5)] (page_add_to_evict_list 5 afterReset) :=
    Run.step (Run.start afterReset_empty) ⟨by omega, rfl⟩ rfl
  refine ⟨_, _, h, rfl, ?_⟩
  intro hr
  exact hr.zero_not_in rfl

end blumach.evict_list
