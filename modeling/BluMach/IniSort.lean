-- `delete_section_if_empty` of `ini.c`, which sorts the entries of a section that it does not
-- delete. The nodes stay where they are in their list, and what stands behind their links moves.
import BluMach.ExchangeSort
import BluMach.Ini

namespace blumach.ini

open exchange_sort (sort sort_perm sort_sorted)

/-! ## Sections and entries as nodes -/

/-- The nodes by their addresses: `list.next` of a section or an entry, `entry_head.next` of a
section, and an entry behind its `list`. -/
structure Memory where
  next : Nat → Option Nat
  entry_head : Nat → Option Nat
  ent : Nat → Entry_t

/-- `strlen(ent->name) > 0`. -/
def Named (m : Memory) (ent : Nat) : Prop := 0 < (m.ent ent).name.length

instance (m : Memory) (ent : Nat) : Decidable (Named m ent) := by
  unfold Named
  infer_instance

/-- Of unsigned bytes. A string that ends is below one that goes on. -/
def strcmp : List UInt8 → List UInt8 → Int
  | [], [] => 0
  | [], _ :: _ => -1
  | _ :: _, [] => 1
  | a :: s, b :: t => if a = b then strcmp s t else (a.toNat : Int) - b.toNat

/-! ## The source

A result of `none` is a crash, or a list that has not come to its end. -/

def entries_num_loop (m : Memory) : Nat → Option Nat → Nat → Option Nat
  | _, none, i => some i
  | 0, some _, _ => none
  | fuel + 1, some ent, i => entries_num_loop m fuel (m.next ent) (if Named m ent then i + 1 else i)

def entries_num (fuel : Nat) (m : Memory) (section_ : Nat) : Option Nat :=
  entries_num_loop m fuel (m.entry_head section_) 0

/-- The three `memcpy`, each of what follows `list`. -/
def swap_entries (i_ent j_ent : Nat) (m : Memory) : Memory :=
  let t_ent := m.ent j_ent
  let m := { m with ent := Function.update m.ent j_ent (m.ent i_ent) }
  { m with ent := Function.update m.ent i_ent t_ent }

def sort_inner (i i_ent : Nat) : Nat → Nat → Option Nat → Memory → Option Memory
  | _, _, none, m => some m
  | 0, _, some _, _ => none
  | fuel + 1, j, some j_ent, m =>
    let j_next := m.next j_ent
    if Named m j_ent then
      let m :=
        if j ≠ i ∧ strcmp (m.ent j_ent).name (m.ent i_ent).name > 0 then swap_entries i_ent j_ent m
        else m
      sort_inner i i_ent fuel (j + 1) j_next m
    else sort_inner i i_ent fuel j j_next m

def sort_outer (fuel : Nat) (section_ : Nat) : Nat → Nat → Option Nat → Memory → Option Memory
  | _, _, none, m => some m
  | 0, _, some _, _ => none
  | turns + 1, i, some i_ent, m =>
    let i_next := m.next i_ent
    if Named m i_ent then
      (sort_inner i i_ent fuel 0 (m.entry_head section_) m).bind fun m =>
        sort_outer fuel section_ turns (i + 1) i_next m
    else sort_outer fuel section_ turns i i_next m

/-- The node whose `next` is `old`, from `node` on. -/
def list_delete_loop (old : Nat) : Nat → Nat → Memory → Option Nat
  | 0, _, _ => none
  | fuel + 1, node, m =>
    if m.next node = some old then some node
    else (m.next node).bind fun node => list_delete_loop old fuel node m

/-- The store into the head stores what is there already. -/
def list_delete (fuel old head : Nat) (m : Memory) : Option Memory :=
  (list_delete_loop old fuel head m).map fun node =>
    { m with next := Function.update m.next node (m.next old) }

/-- The section that is deleted is also freed. -/
def delete_section_if_empty (fuel head : Nat) (section_ : Option Nat) (m : Memory) :
    Option Memory :=
  match section_ with
  | none => some m
  | some section_ =>
    (entries_num fuel m section_).bind fun n =>
      if n > 0 then sort_outer fuel section_ fuel 0 (m.entry_head section_) m
      else list_delete fuel section_ head m

/-! ## The order of the names -/

theorem strcmp_pos_iff (s t : List UInt8) : strcmp s t > 0 ↔ t < s := by
  induction s, t using strcmp.induct with
  | case1 => simp [strcmp]
  | case2 => simp [strcmp]
  | case3 => simp [strcmp]
  | case4 a s t ih =>
    rw [strcmp, if_pos rfl, ih, List.cons_lt_cons_iff]
    simp
  | case5 a s b t h =>
    rw [strcmp, if_neg h, List.cons_lt_cons_iff, UInt8.lt_iff_toNat_lt]
    have hne : ¬b = a := fun he => h he.symm
    simp only [hne, false_and, or_false]
    omega

/-- The names stand in `strcmp` order. -/
def InOrder (x y : Entry_t) : Prop := strcmp x.name y.name ≤ 0

instance : DecidableRel InOrder := fun x y => by
  unfold InOrder
  infer_instance

theorem inOrder_iff (x y : Entry_t) : InOrder x y ↔ x.name ≤ y.name := by
  rw [← List.not_lt, ← strcmp_pos_iff, InOrder]
  omega

instance : Std.Total InOrder where
  total x y := by
    rw [inOrder_iff, inOrder_iff]
    exact List.le_total _ _

instance : IsTrans Entry_t InOrder where
  trans x y z hxy hyz := by
    rw [inOrder_iff] at *
    exact List.le_trans hxy hyz

/-! ## The list of the nodes -/

/-- The nodes from `p` up to `q`, in the order of their links. -/
def Path (next : Nat → Option Nat) : Option Nat → List Nat → Option Nat → Prop
  | p, [], q => p = q
  | p, a :: l, q => p = some a ∧ Path next (next a) l q

theorem path_append {next : Nat → Option Nat} {p q : Option Nat} {l₁ l₂ : List Nat} :
    Path next p (l₁ ++ l₂) q ↔ ∃ r, Path next p l₁ r ∧ Path next r l₂ q := by
  induction l₁ generalizing p with
  | nil =>
    constructor
    · intro h
      exact ⟨p, rfl, h⟩
    · rintro ⟨r, rfl, h⟩
      exact h
  | cons a l₁ ih =>
    simp only [List.cons_append, Path, ih]
    constructor
    · rintro ⟨hp, r, h1, h2⟩
      exact ⟨r, ⟨hp, h1⟩, h2⟩
    · rintro ⟨r, ⟨hp, h1⟩, h2⟩
      exact ⟨hp, r, h1, h2⟩

/-- The links determine the list. -/
theorem path_unique {next : Nat → Option Nat} {p : Option Nat} {l l' : List Nat}
    (h : Path next p l none) (h' : Path next p l' none) : l = l' := by
  induction l generalizing p l' with
  | nil =>
    obtain rfl : p = none := h
    cases l' with
    | nil => rfl
    | cons b l' => exact absurd h'.1 (by simp)
  | cons a l ih =>
    obtain ⟨rfl, h⟩ := h
    cases l' with
    | nil => exact absurd h' (by simp [Path])
    | cons b l' =>
      obtain ⟨hb, h'⟩ := h'
      obtain rfl := Option.some.inj hb
      rw [ih h h']

/-- A list that comes to its end has no node twice. -/
theorem path_nodup {next : Nat → Option Nat} {p : Option Nat} {l : List Nat}
    (h : Path next p l none) : l.Nodup := by
  induction l generalizing p with
  | nil => exact List.nodup_nil
  | cons a l ih =>
    refine List.nodup_cons.mpr ⟨?_, ih h.2⟩
    intro ha
    obtain ⟨u, v, rfl⟩ := List.append_of_mem ha
    obtain ⟨r, -, hr⟩ := path_append.mp h.2
    have heq := path_unique h.2 hr.2
    have hlen := congrArg List.length heq
    simp at hlen
    omega

/-! ## The named entries -/

def named (m : Memory) (l : List Nat) : List Nat := l.filter fun e => decide (Named m e)

theorem named_append (m : Memory) (l₁ l₂ : List Nat) :
    named m (l₁ ++ l₂) = named m l₁ ++ named m l₂ := List.filter_append ..

theorem named_cons {m : Memory} {a : Nat} (l : List Nat) (ha : Named m a) :
    named m (a :: l) = a :: named m l := List.filter_cons_of_pos (decide_eq_true ha)

theorem unnamed_cons {m : Memory} {a : Nat} (l : List Nat) (ha : ¬Named m a) :
    named m (a :: l) = named m l := List.filter_cons_of_neg (by simpa using ha)

/-- What a swap keeps: the nodes, which of them are named, and the ones that are not. -/
structure Keeps (m m' : Memory) : Prop where
  next : m'.next = m.next
  entry_head : m'.entry_head = m.entry_head
  named : ∀ e, Named m' e ↔ Named m e
  unnamed : ∀ e, ¬Named m e → m'.ent e = m.ent e

theorem Keeps.refl (m : Memory) : Keeps m m := ⟨rfl, rfl, fun _ => Iff.rfl, fun _ _ => rfl⟩

theorem Keeps.trans {m₁ m₂ m₃ : Memory} (h : Keeps m₁ m₂) (h' : Keeps m₂ m₃) : Keeps m₁ m₃ := by
  refine ⟨h'.next.trans h.next, h'.entry_head.trans h.entry_head, ?_, ?_⟩
  · intro e
    rw [h'.named, h.named]
  · intro e he
    rw [h'.unnamed e (by rwa [h.named]), h.unnamed e he]

theorem Keeps.named_eq {m m' : Memory} (h : Keeps m m') (l : List Nat) :
    ini.named m' l = ini.named m l := by
  unfold ini.named
  exact List.filter_congr fun e _ => decide_eq_decide.mpr (h.named e)

theorem swap_keeps {m : Memory} {a b : Nat} (ha : Named m a) (hb : Named m b) :
    Keeps m (swap_entries a b m) := by
  refine ⟨rfl, rfl, ?_, ?_⟩
  · intro e
    by_cases hea : e = a
    · subst hea
      simp only [Named, swap_entries, Function.update_self] at *
      exact ⟨fun _ => ha, fun _ => hb⟩
    · by_cases heb : e = b
      · subst heb
        simp only [Named, swap_entries, Function.update_of_ne hea, Function.update_self] at *
        exact ⟨fun _ => hb, fun _ => ha⟩
      · simp only [Named, swap_entries, Function.update_of_ne hea, Function.update_of_ne heb]
  · intro e he
    have hea : e ≠ a := by
      rintro rfl
      exact he ha
    have heb : e ≠ b := by
      rintro rfl
      exact he hb
    simp only [swap_entries, Function.update_of_ne hea, Function.update_of_ne heb]

/-- What the inner loop does to the named nodes `ns`, with the entry of `a` in hand. -/
structure Passed (a : Nat) (ns : List Nat) (m m' : Memory) : Prop where
  keeps : Keeps m m'
  others : ∀ e, e ≠ a → e ∉ ns → m'.ent e = m.ent e
  list : ns.map m'.ent = (exchange_sort.pass InOrder (m.ent a) (ns.map m.ent)).1
  hand : m'.ent a = (exchange_sort.pass InOrder (m.ent a) (ns.map m.ent)).2

theorem passed_nil (a : Nat) (m : Memory) : Passed a [] m m :=
  ⟨Keeps.refl m, fun _ _ _ => rfl, rfl, rfl⟩

/-- A name that is not greater stays where it is. -/
theorem Passed.stays {a b : Nat} {ns : List Nat} {m m' : Memory} (hd : (a :: b :: ns).Nodup)
    (hle : InOrder (m.ent b) (m.ent a)) (h : Passed a ns m m') : Passed a (b :: ns) m m' := by
  have hab : b ≠ a := by
    rintro rfl
    simp at hd
  have hbn : b ∉ ns := (List.nodup_cons.mp (List.nodup_cons.mp hd).2).1
  refine ⟨h.keeps, ?_, ?_, ?_⟩
  · intro e he hen
    exact h.others e he (fun hm => hen (List.mem_cons_of_mem _ hm))
  · rw [List.map_cons, List.map_cons, exchange_sort.pass, if_pos hle, h.list, h.others b hab hbn]
  · rw [List.map_cons, exchange_sort.pass, if_pos hle]
    exact h.hand

/-- A greater name changes places with the one in hand. -/
theorem Passed.swaps {a b : Nat} {ns : List Nat} {m m' : Memory} (hd : (a :: b :: ns).Nodup)
    (ha : Named m a) (hb : Named m b) (hgt : ¬InOrder (m.ent b) (m.ent a))
    (h : Passed a ns (swap_entries a b m) m') : Passed a (b :: ns) m m' := by
  have hab : b ≠ a := by
    rintro rfl
    simp at hd
  have hbn : b ∉ ns := (List.nodup_cons.mp (List.nodup_cons.mp hd).2).1
  have han : a ∉ ns := fun hm => (List.nodup_cons.mp hd).1 (List.mem_cons_of_mem _ hm)
  have hta : (swap_entries a b m).ent a = m.ent b := Function.update_self ..
  have htb : (swap_entries a b m).ent b = m.ent a := by
    simp only [swap_entries, Function.update_of_ne hab, Function.update_self]
  have hto : ∀ e, e ≠ a → e ≠ b → (swap_entries a b m).ent e = m.ent e := by
    intro e hea heb
    simp only [swap_entries, Function.update_of_ne hea, Function.update_of_ne heb]
  have hrest : ns.map (swap_entries a b m).ent = ns.map m.ent := by
    apply List.map_congr_left
    intro e he
    exact hto e (fun h => han (h ▸ he)) (fun h => hbn (h ▸ he))
  refine ⟨(swap_keeps ha hb).trans h.keeps, ?_, ?_, ?_⟩
  · intro e he hen
    have heb : e ≠ b := fun h => hen (h ▸ List.mem_cons_self)
    rw [h.others e he (fun hm => hen (List.mem_cons_of_mem _ hm)), hto e he heb]
  · rw [List.map_cons, List.map_cons, exchange_sort.pass, if_neg hgt, h.list, h.others b hab hbn,
      hta, htb, hrest]
  · rw [List.map_cons, exchange_sort.pass, if_neg hgt, h.hand, hta, hrest]

/-- The inner loop over a part of the list without the node in hand. Its counter is not `i` at any
named node there. -/
theorem inner_part {i a : Nat} {js : List Nat} {j : Nat} {p q : Option Nat} {m : Memory}
    (hp : Path m.next p js q) (ha : Named m a) (hd : (a :: js).Nodup)
    (hj : j + (named m js).length ≤ i ∨ i < j) :
    ∃ m', Passed a (named m js) m m' ∧
      ∀ fuel, sort_inner i a (js.length + fuel) j p m =
        sort_inner i a fuel (j + (named m js).length) q m' := by
  induction js generalizing j p m with
  | nil =>
    obtain rfl : p = q := hp
    refine ⟨m, passed_nil a m, ?_⟩
    intro fuel
    rw [List.length_nil, Nat.zero_add]
    rfl
  | cons b js ih =>
    obtain ⟨rfl, hp⟩ := hp
    have hd' : (a :: js).Nodup := hd.sublist ((List.sublist_cons_self b js).cons_cons a)
    have hlen : ∀ fuel, (b :: js).length + fuel = js.length + fuel + 1 := by
      intro fuel
      rw [List.length_cons, Nat.add_right_comm]
    by_cases hb : Named m b
    · have hnb : named m (b :: js) = b :: named m js := named_cons js hb
      have hdn : (a :: b :: named m js).Nodup := by
        rw [← hnb]
        exact hd.sublist (List.filter_sublist.cons_cons a)
      have hcount : j + 1 + (named m js).length = j + (named m (b :: js)).length := by
        rw [hnb, List.length_cons, Nat.add_assoc, Nat.add_comm 1]
      rw [← hcount] at hj ⊢
      rw [hnb]
      have hij : j ≠ i := by omega
      by_cases hle : InOrder (m.ent b) (m.ent a)
      · obtain ⟨m', h1, h2⟩ := ih hp ha hd' (j := j + 1) (by omega)
        refine ⟨m', h1.stays hdn hle, ?_⟩
        intro fuel
        have hskip : ¬(j ≠ i ∧ strcmp (m.ent b).name (m.ent a).name > 0) := by
          rintro ⟨-, hgt⟩
          unfold InOrder at hle
          omega
        rw [hlen, sort_inner]
        dsimp only
        rw [if_pos hb, if_neg hskip, h2]
      · have hk := swap_keeps ha hb
        obtain ⟨m', h1, h2⟩ := ih (m := swap_entries a b m) hp ((hk.named a).mpr ha) hd'
          (j := j + 1) (by rw [hk.named_eq]; omega)
        rw [hk.named_eq] at h1 h2
        refine ⟨m', h1.swaps hdn ha hb hle, ?_⟩
        intro fuel
        have hswap : j ≠ i ∧ strcmp (m.ent b).name (m.ent a).name > 0 := by
          unfold InOrder at hle
          exact ⟨hij, by omega⟩
        rw [hlen, sort_inner]
        dsimp only
        rw [if_pos hb, if_pos hswap, h2]
    · rw [unnamed_cons js hb] at hj ⊢
      obtain ⟨m', h1, h2⟩ := ih hp ha hd' hj
      refine ⟨m', h1, ?_⟩
      intro fuel
      rw [hlen, sort_inner]
      dsimp only
      rw [if_neg hb, h2]

/-- The inner loop for the node between `l₁` and `l₂`. -/
theorem inner_spec {a : Nat} {l₁ l₂ : List Nat} {p : Option Nat} {m : Memory}
    (hp : Path m.next p (l₁ ++ a :: l₂) none) (ha : Named m a) :
    ∃ m', Keeps m m' ∧ (∀ e, e ∉ l₁ ++ a :: l₂ → m'.ent e = m.ent e) ∧
      (∀ fuel, (l₁ ++ a :: l₂).length ≤ fuel →
        sort_inner (named m l₁).length a fuel 0 p m = some m') ∧
      (named m l₁).map m'.ent = (exchange_sort.pass InOrder (m.ent a) ((named m l₁).map m.ent)).1 ∧
      (m'.ent a, (named m l₂).map m'.ent) =
        (exchange_sort.pass InOrder
          (exchange_sort.pass InOrder (m.ent a) ((named m l₁).map m.ent)).2
          ((named m l₂).map m.ent)).swap := by
  have hd := path_nodup hp
  have hd1 : (a :: l₁).Nodup := by
    have := List.nodup_middle.mp hd
    exact this.sublist ((List.sublist_append_left l₁ l₂).cons_cons a)
  have hd2 : (a :: l₂).Nodup := hd.sublist (List.sublist_append_right l₁ _)
  have hdisj : ∀ e ∈ l₁, e ∉ a :: l₂ := by
    intro e he1 he2
    exact (List.nodup_append.mp hd).2.2 e he1 e he2 rfl
  obtain ⟨r, hp1, hr, hp2⟩ := path_append.mp hp
  obtain ⟨m₁, hm1, hrun1⟩ := inner_part hp1 ha hd1 (i := (named m l₁).length) (j := 0) (by omega)
  have hk := hm1.keeps
  have ha1 : Named m₁ a := (hk.named a).mpr ha
  rw [← hk.next] at hp2
  obtain ⟨m₂, hm2, hrun2⟩ := inner_part hp2 ha1 hd2 (i := (named m l₁).length)
    (j := (named m l₁).length + 1) (by omega)
  rw [hk.named_eq] at hm2
  have hsame1 : ∀ e ∈ l₂, m₁.ent e = m.ent e := by
    intro e he
    apply hm1.others
    · rintro rfl
      exact (List.nodup_cons.mp hd2).1 he
    · intro hm
      exact hdisj e (List.mem_of_mem_filter hm) (List.mem_cons_of_mem _ he)
  have hsame2 : ∀ e ∈ l₁, m₂.ent e = m₁.ent e := by
    intro e he
    apply hm2.others
    · rintro rfl
      exact hdisj e he List.mem_cons_self
    · intro hm
      exact hdisj e he (List.mem_cons_of_mem _ (List.mem_of_mem_filter hm))
  have hmap1 : (named m l₂).map m₁.ent = (named m l₂).map m.ent :=
    List.map_congr_left fun e he => hsame1 e (List.mem_of_mem_filter he)
  have hmap2 : (named m l₁).map m₂.ent = (named m l₁).map m₁.ent :=
    List.map_congr_left fun e he => hsame2 e (List.mem_of_mem_filter he)
  refine ⟨m₂, hk.trans hm2.keeps, ?_, ?_, ?_, ?_⟩
  · intro e he
    have he1 : e ∉ l₁ := fun h => he (List.mem_append_left _ h)
    have he2 : e ∉ a :: l₂ := fun h => he (List.mem_append_right _ h)
    have hea : e ≠ a := fun h => he2 (h ▸ List.mem_cons_self)
    rw [hm2.others e hea (fun h => he2 (List.mem_cons_of_mem _ (List.mem_of_mem_filter h))),
      hm1.others e hea (fun h => he1 (List.mem_of_mem_filter h))]
  · intro fuel hf
    rw [List.length_append, List.length_cons] at hf
    obtain ⟨k, rfl⟩ : ∃ k, fuel = l₁.length + (l₂.length + k + 1) :=
      ⟨fuel - (l₁.length + l₂.length + 1), by omega⟩
    rw [hrun1, hr, sort_inner, Nat.zero_add]
    dsimp only
    rw [if_pos ha1, if_neg (fun h => h.1 rfl), hrun2]
    rw [sort_inner]
  · rw [hmap2, hm1.list]
  · rw [hm2.hand, hm2.list, hm1.hand, hmap1]
    rfl

/-- The outer loop from the nodes of `l₂` on, behind the ones of `l₁`. -/
theorem outer_spec {section_ : Nat} {l₁ l₂ : List Nat} {p : Option Nat} {m : Memory}
    (h1 : Path m.next (m.entry_head section_) l₁ p) (h2 : Path m.next p l₂ none) :
    ∃ m', Keeps m m' ∧ (∀ e, e ∉ l₁ ++ l₂ → m'.ent e = m.ent e) ∧
      (∀ turns fuel, l₂.length ≤ turns → (l₁ ++ l₂).length ≤ fuel →
        sort_outer fuel section_ turns (named m l₁).length p m = some m') ∧
      (named m (l₁ ++ l₂)).map m'.ent =
        sort InOrder ((named m l₁).map m.ent) ((named m l₂).map m.ent) := by
  induction l₂ generalizing l₁ p m with
  | nil =>
    obtain rfl : p = none := h2
    refine ⟨m, Keeps.refl m, fun _ _ => rfl, ?_, ?_⟩
    · intro turns fuel _ _
      rw [sort_outer]
    · have hnil : (named m []).map m.ent = [] := rfl
      rw [List.append_nil, hnil, sort]
  | cons a l₂ ih =>
    obtain ⟨rfl, h2⟩ := h2
    have hsplit : l₁ ++ [a] ++ l₂ = l₁ ++ a :: l₂ := by simp
    have h1' : Path m.next (m.entry_head section_) (l₁ ++ [a]) (m.next a) :=
      path_append.mpr ⟨some a, h1, rfl, rfl⟩
    by_cases ha : Named m a
    · have hsnoc : named m (l₁ ++ [a]) = named m l₁ ++ [a] := by
        rw [named_append, named_cons [] ha]
        rfl
      obtain ⟨m₁, hk, hoff, hrun, hfront, hback⟩ :=
        inner_spec (path_append.mpr ⟨some a, h1, rfl, h2⟩) ha
      rw [← hk.next, ← hk.entry_head] at h1'
      rw [← hk.next] at h2
      obtain ⟨m', hk', hoff', hrun', hsort⟩ := ih h1' h2
      rw [hsplit] at hoff' hrun' hsort
      simp only [hk.named_eq] at hrun' hsort
      refine ⟨m', hk.trans hk', ?_, ?_, ?_⟩
      · intro e he
        rw [hoff' e he, hoff e he]
      · intro turns fuel ht hf
        obtain ⟨turns, rfl⟩ : ∃ k, turns = k + 1 := ⟨turns - 1, by simp at ht; omega⟩
        rw [sort_outer, if_pos ha, hrun fuel hf, Option.bind_some]
        have hcount : (named m l₁ ++ [a]).length = (named m l₁).length + 1 := List.length_append
        rw [hsnoc, hcount, hk.next] at hrun'
        exact hrun' turns fuel (by simp at ht; omega) hf
      · obtain ⟨hhand, hrest⟩ := Prod.ext_iff.mp hback
        dsimp only [Prod.swap] at hhand hrest
        rw [hsort, hsnoc, List.map_append, List.map_singleton, hfront, hhand, hrest,
          named_cons l₂ ha, List.map_cons, sort]
    · have hsnoc : named m (l₁ ++ [a]) = named m l₁ := by
        rw [named_append, unnamed_cons [] ha]
        exact List.append_nil _
      obtain ⟨m', hk, hoff, hrun, hsort⟩ := ih h1' h2
      rw [hsplit] at hoff hrun hsort
      rw [hsnoc] at hrun hsort
      refine ⟨m', hk, hoff, ?_, ?_⟩
      · intro turns fuel ht hf
        obtain ⟨turns, rfl⟩ : ∃ k, turns = k + 1 := ⟨turns - 1, by simp at ht; omega⟩
        rw [sort_outer, if_neg ha, hrun turns fuel (by simp at ht; omega) hf]
      · rw [hsort, unnamed_cons l₂ ha]

theorem entries_num_loop_spec {m : Memory} {l : List Nat} {p : Option Nat}
    (h : Path m.next p l none) (i fuel : Nat) (hf : l.length ≤ fuel) :
    entries_num_loop m fuel p i = some (i + (named m l).length) := by
  induction l generalizing p i fuel with
  | nil =>
    obtain rfl : p = none := h
    rw [entries_num_loop]
    rfl
  | cons a l ih =>
    obtain ⟨rfl, h⟩ := h
    obtain ⟨fuel, rfl⟩ : ∃ k, fuel = k + 1 := ⟨fuel - 1, by simp at hf; omega⟩
    rw [entries_num_loop, ih h _ fuel (by simp at hf; omega)]
    by_cases ha : Named m a
    · rw [if_pos ha, named_cons l ha, List.length_cons, Nat.add_right_comm, Nat.add_assoc]
    · rw [if_neg ha, unnamed_cons l ha]

/-! ## The section afterwards -/

/-- A list of entries in which only the named ones have moved. -/
theorem entries_perm {m m' : Memory} (hk : Keeps m m') {l : List Nat}
    (h : ((named m l).map m'.ent).Perm ((named m l).map m.ent)) :
    (l.map m'.ent).Perm (l.map m.ent) := by
  have hsplit : (named m l ++ l.filter fun e => !decide (Named m e)).Perm l :=
    List.filter_append_perm _ l
  have hun : (l.filter fun e => !decide (Named m e)).map m'.ent =
      (l.filter fun e => !decide (Named m e)).map m.ent := by
    apply List.map_congr_left
    intro e he
    exact hk.unnamed e (by simpa using (List.mem_filter.mp he).2)
  refine ((hsplit.map m'.ent).symm.trans ?_).trans (hsplit.map m.ent)
  rw [List.map_append, List.map_append, hun]
  exact h.append_right _

/-- A section with named entries keeps its nodes, its entries and the places of the ones without
names, and the names come to stand in `strcmp` order. -/
theorem sorting_keeps_the_section (m : Memory) (head section_ : Nat) (l : List Nat)
    (hl : Path m.next (m.entry_head section_) l none) (hn : ∃ e ∈ l, (m.ent e).name ≠ []) :
    ∃ m', (∀ fuel, l.length ≤ fuel →
        delete_section_if_empty fuel head (some section_) m = some m') ∧
      (m'.next = m.next ∧ m'.entry_head = m.entry_head) ∧
      (l.map m'.ent).Perm (l.map m.ent) ∧
      (∀ e, e ∉ l ∨ (m.ent e).name = [] → m'.ent e = m.ent e) ∧
      (∀ e, (m'.ent e).name = [] ↔ (m.ent e).name = []) ∧
      ((l.map m'.ent).filter fun x => x.name ≠ []).Pairwise
        fun x y => strcmp x.name y.name ≤ 0 := by
  have hname : ∀ (m : Memory) e, Named m e ↔ (m.ent e).name ≠ [] :=
    fun m e => List.length_pos_iff
  obtain ⟨m', hk, hoff, hrun, hsort⟩ := @outer_spec section_ [] l _ m rfl hl
  refine ⟨m', ?_, ⟨hk.next, hk.entry_head⟩, ?_, ?_, ?_, ?_⟩
  · intro fuel hf
    have hpos : (named m l).length > 0 := by
      obtain ⟨e, he, hne⟩ := hn
      exact List.length_pos_of_mem (List.mem_filter.mpr ⟨he, by simpa [hname] using hne⟩)
    rw [delete_section_if_empty, entries_num, entries_num_loop_spec hl 0 fuel hf, Option.bind_some,
      Nat.zero_add, if_pos hpos]
    exact hrun fuel fuel hf hf
  · apply entries_perm hk
    rw [List.nil_append] at hsort
    rw [hsort]
    exact sort_perm InOrder _ _
  · rintro e (he | he)
    · exact hoff e he
    · exact hk.unnamed e (by rw [hname]; exact not_not.mpr he)
  · intro e
    rw [← not_iff_not]
    exact (hname m' e).symm.trans ((hk.named e).trans (hname m e))
  · have hfilter : (l.map m'.ent).filter (fun x => x.name ≠ []) = (named m l).map m'.ent := by
      rw [List.filter_map, ← hk.named_eq]
      congr 1
      exact List.filter_congr fun e _ => decide_eq_decide.mpr (hname m' e).symm
    rw [List.nil_append] at hsort
    rw [hfilter, hsort]
    exact sort_sorted InOrder _

/-- Two named entries with one between them that has no name. -/
def twoNames : Memory where
  next := fun e => if e = 1 then some 2 else if e = 2 then some 3 else none
  entry_head := fun _ => some 1
  ent := fun e =>
    if e = 1 then ⟨[98], [50], ['2']⟩ else if e = 3 then ⟨[97], [49], ['1']⟩ else ⟨[], [51], ['3']⟩

theorem two_names_are_sorted :
    ∃ m', delete_section_if_empty 3 0 (some 0) twoNames = some m' ∧ m'.next = twoNames.next ∧
      m'.ent 2 = twoNames.ent 2 ∧
      (([1, 2, 3].map m'.ent).filter fun x => x.name ≠ []).Pairwise
        fun x y => strcmp x.name y.name ≤ 0 := by
  obtain ⟨m', hrun, hnodes, -, hstay, -, hsort⟩ :=
    sorting_keeps_the_section twoNames 0 0 [1, 2, 3] ⟨rfl, rfl, rfl, rfl⟩
      ⟨1, List.mem_cons_self, by decide⟩
  exact ⟨m', hrun 3 (Nat.le_refl 3), hnodes.1, hstay 2 (Or.inr rfl), hsort⟩

end blumach.ini
