-- The laws of the memory map. Each page should answer with the last mapping
-- that covers it, whatever came before. A recalculation walks each mapping
-- from its own base and not from the base of the range, so it can put a
-- mapping over a later one on the pages below the range.
import BluMach.MemMap

namespace blumach.mem

open last_wins

/-! ## The answer of a page -/

/-- The five tables. -/
inductive View where
  | exec
  | write
  | read
  | writeBus
  | readBus
deriving DecidableEq, Repr

def Tables.get (t : Tables) : View → Nat → Option Nat
  | .exec => t.mem_exec
  | .write => t.write_mapping
  | .read => t.read_mapping
  | .writeBus => t.write_mapping_bus
  | .readBus => t.read_mapping_bus

/-- The mapping covers page `p`. -/
def covers (map : Mapping) (p : Nat) : Bool :=
  decide (map.base ≤ p * MEM_GRANULARITY_SIZE) &&
    decide (p * MEM_GRANULARITY_SIZE < map.base + map.size)

/-- What mapping number `mi.2` puts in a table for page `p`, when it has the
callback and the access states allow it. -/
def offers (s : MemState) (v : View) (mi : Mapping × Nat) (p : Nat) : Option Nat :=
  match v with
  | .exec =>
    if mem_mapping_access_allowed mi.1.flags (stateX (s.mem_state p (cpuState s))) then
      mi.1.exec.map fun exec => exec + (p * MEM_GRANULARITY_SIZE - mi.1.base)
    else none
  | .write =>
    if s.mem_wp p == 0 && canWrite mi.1 &&
        mem_mapping_access_allowed mi.1.flags (stateW (s.mem_state p (cpuState s)))
    then some mi.2 else none
  | .read =>
    if canRead mi.1 && mem_mapping_access_allowed mi.1.flags (stateR (s.mem_state p (cpuState s)))
    then some mi.2 else none
  | .writeBus =>
    if s.mem_wp_bus p == 0 && canWrite mi.1 &&
        mem_mapping_access_allowed mi.1.flags (stateW (s.mem_state p (busState s)))
    then some mi.2 else none
  | .readBus =>
    if canRead mi.1 && mem_mapping_access_allowed mi.1.flags (stateR (s.mem_state p (busState s)))
    then some mi.2 else none

/-- What an enabled mapping that covers the page offers. -/
def entry (s : MemState) (v : View) (p : Nat) (mi : Mapping × Nat) : Option Nat :=
  if mi.1.enable && covers mi.1 p then offers s v mi p else none

/-- The answer of a page: the last mapping of the list that has one. -/
def answer (s : MemState) (v : View) (p : Nat) : Option Nat :=
  lastMatch (entry s v p) s.maps.zipIdx

/-- The answer among the mappings that reach into a range. -/
def answerWithin (s : MemState) (base size : Nat) (v : View) (p : Nat) : Option Nat :=
  lastMatch (fun mi => if inRange base size mi.1 then entry s v p mi else none) s.maps.zipIdx

/-- The tables are the answers, page by page. -/
def MapCorrect (s : MemState) : Prop := ∀ v p, s.tables.get v p = answer s v p

/-! ## The loops -/

theorem mem_loopAddrs (start stop c : Nat) :
    c ∈ loopAddrs start stop ↔ start ≤ c ∧ c < stop ∧ MEM_GRANULARITY_SIZE ∣ c - start := by
  unfold loopAddrs MEM_GRANULARITY_SIZE
  simp only [List.mem_map, List.mem_range]
  constructor
  · rintro ⟨k, hk, rfl⟩
    refine ⟨by omega, by omega, ?_⟩
    rw [Nat.add_sub_cancel_left]
    exact Nat.dvd_mul_left _ _
  · rintro ⟨hle, hlt, k, hk⟩
    exact ⟨k, by omega, by omega⟩

/-- A loop from an aligned start meets page `p` at its address. -/
theorem page_mem_loopAddrs (start stop p : Nat) (ha : MEM_GRANULARITY_SIZE ∣ start) :
    p * MEM_GRANULARITY_SIZE ∈ loopAddrs start stop ↔
      start ≤ p * MEM_GRANULARITY_SIZE ∧ p * MEM_GRANULARITY_SIZE < stop := by
  rw [mem_loopAddrs]
  constructor
  · rintro ⟨h1, h2, -⟩
    exact ⟨h1, h2⟩
  · rintro ⟨h1, h2⟩
    exact ⟨h1, h2, Nat.dvd_sub (Nat.dvd_mul_left _ _) ha⟩

theorem aligned_of_mem_loopAddrs (start stop c : Nat) (ha : MEM_GRANULARITY_SIZE ∣ start)
    (hc : c ∈ loopAddrs start stop) : MEM_GRANULARITY_SIZE ∣ c := by
  obtain ⟨hle, -, hd⟩ := (mem_loopAddrs start stop c).mp hc
  have h := Nat.dvd_add hd ha
  rwa [Nat.sub_add_cancel hle] at h

/-- An aligned address is that of its page. -/
theorem page_mul (c : Nat) (hc : MEM_GRANULARITY_SIZE ∣ c) :
    c / MEM_GRANULARITY_SIZE * MEM_GRANULARITY_SIZE = c := Nat.div_mul_cancel hc

theorem eq_page_iff (c p : Nat) (hc : MEM_GRANULARITY_SIZE ∣ c) :
    p = c / MEM_GRANULARITY_SIZE ↔ p * MEM_GRANULARITY_SIZE = c := by
  constructor
  · rintro rfl
    exact page_mul c hc
  · rintro rfl
    exact (Nat.mul_div_cancel p (by decide)).symm

/-! ## The recalculation, table by table -/

theorem get_clearPage (t : Tables) (c : Nat) (v : View) (p : Nat) :
    (clearPage t c).get v p = if p = c / MEM_GRANULARITY_SIZE then none else t.get v p := by
  cases v <;> rfl

theorem get_clear (l : List Nat) (hl : ∀ c ∈ l, MEM_GRANULARITY_SIZE ∣ c) (t : Tables)
    (v : View) (p : Nat) :
    (l.foldl clearPage t).get v p =
      if p * MEM_GRANULARITY_SIZE ∈ l then none else t.get v p := by
  induction l generalizing t with
  | nil => simp
  | cons c l ih =>
    rw [List.foldl_cons, ih (fun d hd => hl d (by simp [hd])), get_clearPage]
    simp only [eq_page_iff c p (hl c (by simp))]
    by_cases h1 : p * MEM_GRANULARITY_SIZE = c
    · simp [h1]
    · simp [h1]

/-- The body of the inner loop puts what the mapping offers over what was
there. -/
theorem get_mapPage (s : MemState) (i : Nat) (map : Mapping) (t : Tables) (c : Nat)
    (hc : MEM_GRANULARITY_SIZE ∣ c) (v : View) (p : Nat) :
    (mapPage s i map t c).get v p =
      if p * MEM_GRANULARITY_SIZE = c then (offers s v (map, i) p).or (t.get v p)
      else t.get v p := by
  by_cases h : p = c / MEM_GRANULARITY_SIZE
  · have hcp : p * MEM_GRANULARITY_SIZE = c := (eq_page_iff c p hc).mp h
    rw [if_pos hcp]
    cases v with
    | exec =>
      simp only [mapPage, offers, Tables.get, hcp, ← h]
      cases map.exec with
      | none => simp
      | some exec => split <;> simp [setAt]
    | write => simp only [mapPage, offers, Tables.get, ← h]; split <;> simp [setAt]
    | read => simp only [mapPage, offers, Tables.get, ← h]; split <;> simp [setAt]
    | writeBus => simp only [mapPage, offers, Tables.get, ← h]; split <;> simp [setAt]
    | readBus => simp only [mapPage, offers, Tables.get, ← h]; split <;> simp [setAt]
  · rw [if_neg fun hcp => h ((eq_page_iff c p hc).mpr hcp)]
    cases v with
    | exec =>
      simp only [mapPage, Tables.get]
      cases map.exec with
      | none => rfl
      | some exec => simp only []; split <;> simp [setAt, h]
    | write => simp only [mapPage, Tables.get]; split <;> simp [setAt, h]
    | read => simp only [mapPage, Tables.get]; split <;> simp [setAt, h]
    | writeBus => simp only [mapPage, Tables.get]; split <;> simp [setAt, h]
    | readBus => simp only [mapPage, Tables.get]; split <;> simp [setAt, h]

theorem get_mapPages (s : MemState) (i : Nat) (map : Mapping) (l : List Nat)
    (hl : ∀ c ∈ l, MEM_GRANULARITY_SIZE ∣ c) (t : Tables) (v : View) (p : Nat) :
    (l.foldl (mapPage s i map) t).get v p =
      if p * MEM_GRANULARITY_SIZE ∈ l then (offers s v (map, i) p).or (t.get v p)
      else t.get v p := by
  induction l generalizing t with
  | nil => simp
  | cons c l ih =>
    rw [List.foldl_cons, ih (fun d hd => hl d (by simp [hd])),
      get_mapPage _ _ _ _ _ (hl c (by simp))]
    by_cases h1 : p * MEM_GRANULARITY_SIZE = c
    · by_cases h2 : p * MEM_GRANULARITY_SIZE ∈ l
      · rw [if_pos h2, if_pos h1, if_pos (by simp [h2]), ← Option.or_assoc, Option.or_self]
      · rw [if_neg h2, if_pos h1, if_pos (by simp [h1])]
    · simp [h1]

/-- One mapping of the walk. It starts at the base of the mapping, also when
that is below the range. -/
theorem get_walkMapping (s : MemState) (base size : Nat) (t : Tables) (mi : Mapping × Nat)
    (v : View) (p : Nat) :
    (walkMapping s base size t mi).get v p =
      (if inRange base size mi.1 && decide (p * MEM_GRANULARITY_SIZE < base + size)
        then entry s v p mi else none).or (t.get v p) := by
  unfold walkMapping
  by_cases hr : inRange base size mi.1 = true
  · have hstart : (if (if mi.1.base < base then mi.1.base else base) < mi.1.base then mi.1.base
        else (if mi.1.base < base then mi.1.base else base)) = mi.1.base := by
      split <;> split at * <;> omega
    have hen : mi.1.enable = true := by
      simp only [inRange, Bool.and_eq_true] at hr
      exact hr.1.1
    simp only [hr, if_true, hstart, Bool.true_and]
    rw [get_mapPages _ _ _ _ fun c hc => aligned_of_mem_loopAddrs _ _ c mi.1.base_aligned hc]
    simp only [page_mem_loopAddrs _ _ _ mi.1.base_aligned, entry, hen, Bool.true_and, covers,
      decide_eq_true_eq, Bool.and_eq_true]
    by_cases h1 : mi.1.base ≤ p * MEM_GRANULARITY_SIZE
    · by_cases h2 : p * MEM_GRANULARITY_SIZE < mi.1.base + mi.1.size
      · by_cases h3 : p * MEM_GRANULARITY_SIZE < base + size
        · rw [if_pos ⟨h1, by split <;> omega⟩, if_pos h3, if_pos ⟨h1, h2⟩]
        · rw [if_neg (by rintro ⟨-, h⟩; split at h <;> omega), if_neg h3, Option.none_or]
      · rw [if_neg (by rintro ⟨-, h⟩; split at h <;> omega)]
        simp [h2]
    · simp [h1]
  · simp only [hr, Bool.false_and, Bool.false_eq_true, if_false, Option.none_or]

theorem get_walk (s : MemState) (base size : Nat) (l : List (Mapping × Nat)) (t : Tables)
    (v : View) (p : Nat) :
    (l.foldl (walkMapping s base size) t).get v p =
      (lastMatch (fun mi => if inRange base size mi.1 &&
        decide (p * MEM_GRANULARITY_SIZE < base + size) then entry s v p mi else none) l).or
        (t.get v p) := by
  induction l generalizing t with
  | nil => rfl
  | cons mi l ih => rw [List.foldl_cons, ih, get_walkMapping, lastMatch, Option.or_assoc]

/-- A mapping with an entry on a page of the range is in range. -/
theorem inRange_of_entry (s : MemState) (base size : Nat) (v : View) (p : Nat)
    (mi : Mapping × Nat) (hle : base ≤ p * MEM_GRANULARITY_SIZE)
    (hlt : p * MEM_GRANULARITY_SIZE < base + size) :
    entry s v p mi = none ∨ inRange base size mi.1 = true := by
  unfold entry covers inRange
  by_cases h : (mi.1.enable && (decide (mi.1.base ≤ p * MEM_GRANULARITY_SIZE) &&
      decide (p * MEM_GRANULARITY_SIZE < mi.1.base + mi.1.size))) = true
  · right
    simp only [Bool.and_eq_true, decide_eq_true_eq] at h ⊢
    exact ⟨⟨h.1, by omega⟩, by omega⟩
  · left
    rw [if_neg h]

/-- What a recalculation leaves on each page: the answer in the range, the old
entry above it, and below it the answer of the mappings that reach in, over the
old entry. -/
theorem get_recalc (s : MemState) (base size : Nat) (hs : size ≠ 0) (hm : s.maps ≠ [])
    (hb : MEM_GRANULARITY_SIZE ∣ base) (v : View) (p : Nat) :
    (mem_mapping_recalc base size s).tables.get v p =
      if p * MEM_GRANULARITY_SIZE < base then
        (answerWithin s base size v p).or (s.tables.get v p)
      else if p * MEM_GRANULARITY_SIZE < base + size then answer s v p
      else s.tables.get v p := by
  unfold mem_mapping_recalc
  rw [if_neg (by simp [hs, hm])]
  simp only []
  rw [get_walk, get_clear _ fun c hc => aligned_of_mem_loopAddrs _ _ c hb hc]
  simp only [page_mem_loopAddrs _ _ _ hb]
  by_cases h1 : p * MEM_GRANULARITY_SIZE < base
  · rw [if_pos h1, if_neg (by omega)]
    simp only [show p * MEM_GRANULARITY_SIZE < base + size by omega, decide_true, Bool.and_true]
    rfl
  · rw [if_neg h1]
    by_cases h2 : p * MEM_GRANULARITY_SIZE < base + size
    · rw [if_pos h2, if_pos ⟨by omega, h2⟩, Option.or_none]
      apply lastMatch_congr
      intro mi _
      simp only [h2, decide_true, Bool.and_true]
      rcases inRange_of_entry s base size v p mi (by omega) h2 with h | h
      · rw [h]; split <;> rfl
      · rw [if_pos h]
    · rw [if_neg h2, if_neg (by omega), lastMatch_none, Option.none_or]
      intro mi _
      simp [h2]

/-! ## One recalculation -/

/-- On the pages below the range, the last answer among the mappings that reach
into the range is the last answer of all, or there is none. -/
def NothingHidden (base size : Nat) (s : MemState) : Prop :=
  size ≠ 0 → ∀ v p, p * MEM_GRANULARITY_SIZE < base →
    answerWithin s base size v p = none ∨ answerWithin s base size v p = answer s v p

theorem answer_tables (s : MemState) (t : Tables) (v : View) (p : Nat) :
    answer { s with tables := t } v p = answer s v p := by
  cases v <;> rfl

theorem answer_recalc (s : MemState) (base size : Nat) (v : View) (p : Nat) :
    answer (mem_mapping_recalc base size s) v p = answer s v p := by
  unfold mem_mapping_recalc
  split
  · rfl
  · exact answer_tables s _ v p

theorem maps_recalc (s : MemState) (base size : Nat) :
    (mem_mapping_recalc base size s).maps = s.maps := by
  unfold mem_mapping_recalc
  split <;> rfl

/-- The tables are right on the pages that a change of the range leaves alone,
and on all of them while there is no mapping. -/
def CorrectOutside (base size : Nat) (s : MemState) : Prop :=
  ∀ v p, (s.maps = [] ∨ p * MEM_GRANULARITY_SIZE < base ∨
    base + size ≤ p * MEM_GRANULARITY_SIZE) → s.tables.get v p = answer s v p

/-- A recalculation makes the tables right exactly when it hides nothing. -/
theorem recalc_correct_iff (s : MemState) (base size : Nat) (hb : MEM_GRANULARITY_SIZE ∣ base)
    (hs : size ≠ 0) (h : CorrectOutside base size s) :
    MapCorrect (mem_mapping_recalc base size s) ↔ NothingHidden base size s := by
  by_cases hm : s.maps = []
  · have hrec : mem_mapping_recalc base size s = s := by
      unfold mem_mapping_recalc
      rw [if_pos (Or.inr hm)]
    rw [hrec]
    constructor
    · intro _ _ v p _
      left
      simp [answerWithin, hm, lastMatch]
    · intro _ v p
      exact h v p (Or.inl hm)
  · constructor
    · intro hc _ v p hp
      have hvp := hc v p
      rw [answer_recalc, get_recalc s base size hs hm hb, if_pos hp,
        h v p (Or.inr (Or.inl hp))] at hvp
      rcases hw : answerWithin s base size v p with _ | x
      · exact Or.inl rfl
      · right
        rw [hw] at hvp
        exact hvp
    · intro hn v p
      rw [answer_recalc, get_recalc s base size hs hm hb]
      by_cases h1 : p * MEM_GRANULARITY_SIZE < base
      · rw [if_pos h1, h v p (Or.inr (Or.inl h1))]
        rcases hn hs v p h1 with h0 | h0
        · rw [h0, Option.none_or]
        · rw [h0, Option.or_self]
      · rw [if_neg h1]
        by_cases h2 : p * MEM_GRANULARITY_SIZE < base + size
        · rw [if_pos h2]
        · rw [if_neg h2]
          exact h v p (Or.inr (Or.inr (by omega)))

/-- With size 0 there is no recalculation, and nothing to do. -/
theorem recalc_correct (s : MemState) (base size : Nat) (hb : MEM_GRANULARITY_SIZE ∣ base)
    (h : CorrectOutside base size s) (hn : NothingHidden base size s) :
    MapCorrect (mem_mapping_recalc base size s) := by
  by_cases hs : size = 0
  · have hrec : mem_mapping_recalc base size s = s := by
      unfold mem_mapping_recalc
      rw [if_pos (Or.inl hs)]
    rw [hrec]
    intro v p
    exact h v p (by omega)
  · exact (recalc_correct_iff s base size hb hs h).mpr hn

/-! ## The changes before a recalculation -/

/-- The entry of a mapping on a page that it does not cover. -/
theorem entry_none (s : MemState) (v : View) (p : Nat) (mi : Mapping × Nat)
    (h : p * MEM_GRANULARITY_SIZE < mi.1.base ∨
      mi.1.base + mi.1.size ≤ p * MEM_GRANULARITY_SIZE) : entry s v p mi = none := by
  have hc : covers mi.1 p = false := by
    unfold covers
    simp only [Bool.and_eq_false_iff, decide_eq_false_iff_not]
    omega
  simp [entry, hc]

theorem entry_disabled (s : MemState) (v : View) (p : Nat) (mi : Mapping × Nat)
    (h : mi.1.enable = false) : entry s v p mi = none := by
  simp [entry, h]

/-- An entry reads only the access states and the write protection of its
page. -/
theorem entry_congr (s s' : MemState) (v : View) (p : Nat) (mi : Mapping × Nat)
    (h1 : s'.in_smm = s.in_smm) (h2 : s'.mem_state p = s.mem_state p)
    (h3 : s'.mem_wp p = s.mem_wp p) (h4 : s'.mem_wp_bus p = s.mem_wp_bus p) :
    entry s' v p mi = entry s v p mi := by
  unfold entry offers cpuState busState
  rw [h1, h2, h3, h4]

theorem entry_maps (s : MemState) (ms : List Mapping) (v : View) (p : Nat) (mi : Mapping × Nat) :
    entry { s with maps := ms } v p mi = entry s v p mi :=
  entry_congr _ _ v p mi rfl rfl rfl rfl

/-- A change of mapping `i` keeps the answer of a page on which the mapping has
the same entry. -/
theorem answer_modify (i : Nat) (f : Mapping → Mapping) (s : MemState) (v : View) (p : Nat)
    (h : ∀ map, s.maps[i]? = some map → entry s v p (f map, i) = entry s v p (map, i)) :
    answer (modify i f s) v p = answer s v p := by
  unfold answer modify
  simp only []
  rw [lastMatch_congr fun mi _ => entry_maps s _ v p mi]
  apply lastMatch_zipIdx_modify
  intro map hmap
  rw [Nat.zero_add]
  exact h map hmap

theorem answer_append (r : Range) (rb rw rl wb ww wl exec : Option Ptr) (fl : BitVec 32)
    (s : MemState) (v : View) (p : Nat)
    (h : p * MEM_GRANULARITY_SIZE < r.base ∨ r.base + r.size ≤ p * MEM_GRANULARITY_SIZE) :
    answer (appendMapping r rb rw rl wb ww wl exec fl s) v p = answer s v p := by
  unfold answer appendMapping
  simp only []
  rw [lastMatch_congr fun mi _ => entry_maps s _ v p mi, List.zipIdx_append, List.zipIdx_singleton,
    lastMatch_snoc, entry_none _ _ _ _ h, Option.none_or]

/-- A page that a loop over the range does not meet. -/
theorem not_in_loop (r : Range) (p c : Nat) (hc : c ∈ loopAddrs r.base (r.base + r.size))
    (h : p * MEM_GRANULARITY_SIZE < r.base ∨ r.base + r.size ≤ p * MEM_GRANULARITY_SIZE) :
    p ≠ c / MEM_GRANULARITY_SIZE := by
  intro hp
  have hd := aligned_of_mem_loopAddrs _ _ c r.base_aligned hc
  obtain ⟨hle, hlt, -⟩ := (mem_loopAddrs _ _ c).mp hc
  rw [eq_page_iff c p hd] at hp
  omega

theorem withAccess_other (bitmap : BitVec 8) (mode : Nat) (r : Range) (access : BitVec 16)
    (s : MemState) (p : Nat)
    (h : p * MEM_GRANULARITY_SIZE < r.base ∨ r.base + r.size ≤ p * MEM_GRANULARITY_SIZE) :
    (withAccess bitmap mode r access s).mem_state p = s.mem_state p := by
  have hl : ∀ c ∈ loopAddrs 0 r.size, p ≠ (c + r.base) / MEM_GRANULARITY_SIZE := by
    intro c hc
    obtain ⟨-, hlt, hd⟩ := (mem_loopAddrs _ _ c).mp hc
    apply not_in_loop r p (c + r.base) _ h
    rw [mem_loopAddrs]
    exact ⟨by omega, by omega, by rwa [Nat.add_sub_cancel, ← Nat.sub_zero c]⟩
  unfold withAccess
  simp only []
  generalize s.mem_state = ms
  generalize loopAddrs 0 r.size = l at hl
  induction l generalizing ms with
  | nil => rfl
  | cons c l ih =>
    rw [List.foldl_cons, ih _ (fun d hd => hl d (by simp [hd])), setAt, if_neg (hl c (by simp))]

theorem answer_withAccess (bitmap : BitVec 8) (mode : Nat) (r : Range) (access : BitVec 16)
    (s : MemState) (v : View) (p : Nat)
    (h : p * MEM_GRANULARITY_SIZE < r.base ∨ r.base + r.size ≤ p * MEM_GRANULARITY_SIZE) :
    answer (withAccess bitmap mode r access s) v p = answer s v p := by
  unfold answer
  apply lastMatch_congr
  intro mi _
  exact entry_congr _ _ v p mi rfl (withAccess_other bitmap mode r access s p h) rfl rfl

/-- The states that differ on the write protection of some pages at most. -/
def SameButWp (p : Nat) (s s' : MemState) : Prop :=
  s'.in_smm = s.in_smm ∧ s'.maps = s.maps ∧ s'.mem_state = s.mem_state ∧
    s'.tables = s.tables ∧ s'.mem_wp p = s.mem_wp p ∧ s'.mem_wp_bus p = s.mem_wp_bus p

theorem setWpPage_other (flags wp : BitVec 8) (s : MemState) (p c : Nat)
    (h : p ≠ c / MEM_GRANULARITY_SIZE) : SameButWp p s (setWpPage flags wp s c) := by
  unfold SameButWp setWpPage
  simp only []
  split <;> split <;> simp [setAt, h]

theorem withWp_other (r : Range) (flags wp : BitVec 8) (s : MemState) (p : Nat)
    (h : p * MEM_GRANULARITY_SIZE < r.base ∨ r.base + r.size ≤ p * MEM_GRANULARITY_SIZE) :
    SameButWp p s (withWp r flags wp s) := by
  have hl := fun c hc => not_in_loop r p c hc h
  unfold withWp
  generalize loopAddrs r.base (r.base + r.size) = l at hl
  induction l generalizing s with
  | nil => exact ⟨rfl, rfl, rfl, rfl, rfl, rfl⟩
  | cons c l ih =>
    obtain ⟨h1, h2, h3, h4, h5, h6⟩ := setWpPage_other flags wp s p c (hl c (by simp))
    obtain ⟨g1, g2, g3, g4, g5, g6⟩ := ih (setWpPage flags wp s c) fun d hd => hl d (by simp [hd])
    exact ⟨g1.trans h1, g2.trans h2, g3.trans h3, g4.trans h4, g5.trans h5, g6.trans h6⟩

theorem withWp_keeps (r : Range) (flags wp : BitVec 8) (s : MemState) :
    (withWp r flags wp s).maps = s.maps ∧ (withWp r flags wp s).tables = s.tables := by
  -- A page above the range shows what no page can change.
  obtain ⟨-, h2, -, h4, -⟩ := withWp_other r flags wp s (r.base + r.size) (by
    right
    exact Nat.le_mul_of_pos_right _ (by decide))
  exact ⟨h2, h4⟩

theorem answer_withWp (r : Range) (flags wp : BitVec 8) (s : MemState) (v : View) (p : Nat)
    (h : p * MEM_GRANULARITY_SIZE < r.base ∨ r.base + r.size ≤ p * MEM_GRANULARITY_SIZE) :
    answer (withWp r flags wp s) v p = answer s v p := by
  obtain ⟨h1, h2, h3, -, h5, h6⟩ := withWp_other r flags wp s p h
  unfold answer
  rw [h2]
  apply lastMatch_congr
  intro mi _
  exact entry_congr _ _ v p mi h1 (congrFun h3 p) h5 h6

/-! ## One operation -/

/-- `mem_mapping_recalc` on the range of mapping `i` hides nothing. -/
def RecalcOfOk (i : Nat) (s : MemState) : Prop :=
  match s.maps[i]? with
  | some map => NothingHidden map.base map.size s
  | none => True

/-- No recalculation of the operation hides anything. -/
def StepOk : MapOp → MemState → Prop
  | .add r rb rw rl wb ww wl exec fl, s =>
    NothingHidden r.base r.size (appendMapping r rb rw rl wb ww wl exec fl s)
  | .set_handler i rb rw rl wb ww wl, s =>
    RecalcOfOk i (modify i (fun map => { map with
      read_b := rb, read_w := rw, read_l := rl, write_b := wb, write_w := ww, write_l := wl }) s)
  | .set_write_handler i wb ww wl, s =>
    RecalcOfOk i (modify i (fun map => { map with write_b := wb, write_w := ww, write_l := wl }) s)
  | .set_exec i exec, s => RecalcOfOk i (modify i (fun map => { map with exec := exec }) s)
  | .disable i, s => RecalcOfOk i (modify i (fun map => { map with enable := false }) s)
  | .enable i, s => RecalcOfOk i (modify i (fun map => { map with enable := true }) s)
  | .set_addr i r, s =>
    RecalcOfOk i (modify i (fun map => { map with enable := false }) s) ∧
      RecalcOfOk i (modify i (fun map => { map with enable := true, toRange := r })
        (mem_mapping_disable i s))
  | .set_access bitmap mode r access, s =>
    NothingHidden r.base r.size (withAccess bitmap mode r access s)
  | .set_wp r flags wp, s => NothingHidden r.base r.size (withWp r flags wp s)

theorem modify_maps_get (i : Nat) (f : Mapping → Mapping) (s : MemState) :
    (modify i f s).maps[i]? = s.maps[i]?.map f := by
  simp [modify]

/-- A change of mapping `i` whose entries differ only on the pages that it
covers after the change, and the recalculation of these pages. -/
theorem recalcOf_modify_correct (i : Nat) (f : Mapping → Mapping) (s : MemState)
    (hc : MapCorrect s)
    (hf : ∀ map, s.maps[i]? = some map → ∀ v p,
      (p * MEM_GRANULARITY_SIZE < (f map).base ∨
        (f map).base + (f map).size ≤ p * MEM_GRANULARITY_SIZE) → entry s v p (map, i) = none)
    (hok : RecalcOfOk i (modify i f s)) : MapCorrect (recalcOf i (modify i f s)) := by
  unfold RecalcOfOk at hok
  unfold recalcOf
  rw [modify_maps_get] at hok ⊢
  rcases hmap : s.maps[i]? with _ | map
  · intro v p
    have hans := answer_modify i f s v p (by simp [hmap])
    exact (hc v p).trans hans.symm
  · rw [hmap] at hok
    apply recalc_correct _ _ _ (f map).base_aligned _ hok
    intro v p hp
    have hne : (modify i f s).maps ≠ [] := by
      intro h0
      have := modify_maps_get i f s
      rw [h0, hmap] at this
      simp at this
    rw [answer_modify]
    · exact hc v p
    · intro map' hmap'
      rw [hmap] at hmap'
      obtain rfl := Option.some.inj hmap'
      have hout := hp.resolve_left hne
      rw [entry_none s v p (f map, i) hout, hf map hmap v p hout]

/-- The changes that leave the range of the mapping as it is. -/
theorem recalcOf_modify_same (i : Nat) (f : Mapping → Mapping) (s : MemState)
    (hc : MapCorrect s) (hr : ∀ map, (f map).toRange = map.toRange)
    (hok : RecalcOfOk i (modify i f s)) : MapCorrect (recalcOf i (modify i f s)) := by
  apply recalcOf_modify_correct i f s hc _ hok
  intro map _ v p hout
  rw [hr map] at hout
  exact entry_none s v p (map, i) hout

theorem maps_recalcOf (i : Nat) (s : MemState) : (recalcOf i s).maps = s.maps := by
  unfold recalcOf
  split
  · exact maps_recalc _ _ _
  · rfl

/-- Every operation that hides nothing keeps the tables right. -/
theorem step_correct (op : MapOp) (s : MemState) (hc : MapCorrect s) (hok : StepOk op s) :
    MapCorrect (step op s) := by
  cases op with
  | add r rb rw rl wb ww wl exec fl =>
    unfold step mem_mapping_add
    simp only []
    split
    · apply recalc_correct _ _ _ r.base_aligned _ hok
      intro v p hp
      have hout := hp.resolve_left (by simp [appendMapping])
      rw [answer_append _ _ _ _ _ _ _ _ _ _ _ _ hout]
      exact hc v p
    · rename_i hs
      intro v p
      rw [answer_append _ _ _ _ _ _ _ _ _ _ _ _ (by omega)]
      exact hc v p
  | set_handler => exact recalcOf_modify_same _ _ s hc (fun _ => rfl) hok
  | set_write_handler => exact recalcOf_modify_same _ _ s hc (fun _ => rfl) hok
  | set_exec => exact recalcOf_modify_same _ _ s hc (fun _ => rfl) hok
  | disable => exact recalcOf_modify_same _ _ s hc (fun _ => rfl) hok
  | enable => exact recalcOf_modify_same _ _ s hc (fun _ => rfl) hok
  | set_addr i r =>
    obtain ⟨hok1, hok2⟩ := hok
    have hc1 : MapCorrect (mem_mapping_disable i s) :=
      recalcOf_modify_same _ _ s hc (fun _ => rfl) hok1
    apply recalcOf_modify_correct _ _ _ hc1 _ hok2
    -- The mapping is disabled when its range changes.
    intro map hmap v p _
    apply entry_disabled
    rw [mem_mapping_disable, maps_recalcOf, modify_maps_get, Option.map_eq_some_iff] at hmap
    obtain ⟨old, -, rfl⟩ := hmap
    rfl
  | set_access bitmap mode r access =>
    apply recalc_correct _ _ _ r.base_aligned _ hok
    intro v p hp
    rcases hp with hp | hout
    · have hm : s.maps = [] := hp
      have h := hc v p
      rw [show answer s v p = none by simp [answer, hm, lastMatch]] at h
      rw [show answer (withAccess bitmap mode r access s) v p = none by
        simp [answer, hp, lastMatch]]
      exact h
    · rw [answer_withAccess _ _ _ _ _ _ _ hout]
      exact hc v p
  | set_wp r flags wp =>
    obtain ⟨hmaps, htab⟩ := withWp_keeps r flags wp s
    apply recalc_correct _ _ _ r.base_aligned _ hok
    intro v p hp
    rw [htab]
    rcases hp with hp | hout
    · have hm : s.maps = [] := hmaps ▸ hp
      have h := hc v p
      rw [show answer s v p = none by simp [answer, hm, lastMatch]] at h
      rw [show answer (withWp r flags wp s) v p = none by simp [answer, hp, lastMatch]]
      exact h
    · rw [answer_withWp _ _ _ _ _ _ hout]
      exact hc v p

/-! ## The law -/

/-- The states of the runs in which no recalculation hides anything. -/
inductive Reached : MemState → Prop
  | initial (in_smm : Bool) (mem_state : Nat → Nat → BitVec 16)
      (mem_wp mem_wp_bus : Nat → BitVec 8) : Reached (initial in_smm mem_state mem_wp mem_wp_bus)
  | step {s : MemState} (op : MapOp) : Reached s → StepOk op s → Reached (step op s)

theorem initial_correct (in_smm : Bool) (mem_state : Nat → Nat → BitVec 16)
    (mem_wp mem_wp_bus : Nat → BitVec 8) :
    MapCorrect (initial in_smm mem_state mem_wp mem_wp_bus) := by
  intro v p
  cases v <;> rfl

/-- While nothing is hidden, each page answers with the last mapping that covers
it, whatever came before. -/
theorem the_map_has_no_history (s : MemState) (h : Reached s) : MapCorrect s := by
  induction h with
  | initial in_smm mem_state mem_wp mem_wp_bus =>
    exact initial_correct in_smm mem_state mem_wp mem_wp_bus
  | step op _ hok ih => exact step_correct op _ ih hok

/-! ## One run that hides a mapping

A mapping of three pages, a later one over its first page, and a change of the
access state of the third page. -/

def threePages : Range := ⟨0, 0x3000, by decide, by decide, by decide⟩
def firstPage : Range := ⟨0, 0x1000, by decide, by decide, by decide⟩
def thirdPage : Range := ⟨0x2000, 0x1000, by decide, by decide, by decide⟩

/-- A mapping that reads bytes, on the external bus. -/
def addReader (r : Range) : MapOp :=
  .add r (some 0) none none none none none none MEM_MAPPING_EXTERNAL

def twoReaders : MemState :=
  step (addReader firstPage) (step (addReader threePages)
    (initial false (fun _ _ => 0) (fun _ => 0) (fun _ => 0)))

theorem two_readers_are_right : MapCorrect twoReaders := by
  apply the_map_has_no_history
  apply Reached.step _ (Reached.step _ (Reached.initial _ _ _ _) _) _
  · intro _ v p hp
    exact absurd hp (Nat.not_lt_zero _)
  · intro _ v p hp
    exact absurd hp (Nat.not_lt_zero _)

/-- The access state of the third page puts the first mapping back on the first
page, where the second one still stands. -/
theorem a_change_above_uncovers_the_first_mapping :
    ¬MapCorrect (step (.set_access 5 0 thirdPage 0) twoReaders) := by
  intro h
  exact absurd (h .read 0) (by decide)

end blumach.mem
