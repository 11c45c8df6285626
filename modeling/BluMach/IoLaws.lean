-- The laws of the lists of the ports: a call works on each port of its range like
-- on a plain list of records, until it comes to an element beyond the arrays.
import BluMach.Guarded
import BluMach.Io
import Mathlib.Data.List.Nodup
import Mathlib.Data.List.Perm.Subperm

namespace blumach.io

variable {F V : Type}

/-! ## The plain lists -/

/-- The records of each port, the oldest first. -/
abbrev Lists (F V : Type) := Port → List (Io F V)

/-- A change of one port. -/
def onPort (i : Nat) (f : List (Io F V) → List (Io F V)) (l : Lists F V) : Lists F V :=
  fun p => if p.val = i then f (l p) else l p

/-- A change of each port of a range. -/
def onRange (g : Range) (f : List (Io F V) → List (Io F V)) (l : Lists F V) : Lists F V :=
  fun p => if p.val ∈ g.indices then f (l p) else l p

/-- A call takes the ports of its range with one record more on each, or gives each of them back
with the oldest equal record less. -/
def Call.onLists [DecidableEq F] [DecidableEq V] (l : Lists F V) (call : Call F V) : Lists F V :=
  if call.set then onRange call.range (fun records => records ++ [call.record]) l
  else onRange call.range (fun records => records.erase call.record) l

theorem Range.nodup (g : Range) : g.indices.Nodup := by
  unfold Range.indices
  refine List.Nodup.map (fun c c' h => ?_) (List.Nodup.filter _ List.nodup_range)
  exact Nat.add_left_cancel h

theorem onPorts_apply {f : List (Io F V) → List (Io F V)} {l : List Nat} (hnodup : l.Nodup)
    (lists : Lists F V) (p : Port) :
    l.foldl (fun lists i => onPort i f lists) lists p =
      if p.val ∈ l then f (lists p) else lists p := by
  induction l generalizing lists with
  | nil => rfl
  | cons i rest ih =>
    obtain ⟨hi, hnodup⟩ := List.nodup_cons.mp hnodup
    rw [List.foldl_cons, ih hnodup]
    unfold onPort
    by_cases hp : p.val = i
    · rw [if_neg (hp ▸ hi), if_pos hp, if_pos (by rw [hp]; exact List.mem_cons_self)]
    · simp [hp]

theorem onRange_eq (g : Range) (f : List (Io F V) → List (Io F V)) (lists : Lists F V) :
    g.indices.foldl (fun lists i => onPort i f lists) lists = onRange g f lists :=
  funext fun p => onPorts_apply g.nodup lists p

/-! ## The linked lists -/

/-- The nodes of each port make a list, linked both ways, with the records in order. No node is
on two ports. -/
structure Nodes (s : Ports F V) (lists : Lists F V) (nodes : Port → List Nat) : Prop where
  list : ∀ p, linked_list.IsList s.next s.prev (s.io p) (s.io_last p) (nodes p)
  records : ∀ p, (nodes p).map s.record = (lists p).map some
  apart : ∀ p q, p ≠ q → ∀ a ∈ nodes p, a ∉ nodes q
  made : ∀ p, ∀ a ∈ nodes p, a < s.calloc

/-- The lists of the ports are intact, and hold these records. -/
def Intact (s : Ports F V) (lists : Lists F V) : Prop := ∃ nodes, Nodes s lists nodes

theorem intact_empty : Intact (empty : Ports F V) fun _ => [] :=
  ⟨fun _ => [], fun _ => linked_list.isList_nil _ _, fun _ => rfl,
    fun _ _ _ _ h => absurd h List.not_mem_nil, fun _ _ h => absurd h List.not_mem_nil⟩

/-- Read from either end, the records of a port are the same. -/
def ReadsAs (s : Ports F V) (lists : Lists F V) : Prop :=
  ∀ p, ∃ nodes : List Nat, linked_list.Walk s.next (s.io p) nodes ∧
    linked_list.Walk s.prev (s.io_last p) nodes.reverse ∧ nodes.map s.record = (lists p).map some

theorem Intact.readsAs {s : Ports F V} {lists : Lists F V} (h : Intact s lists) :
    ReadsAs s lists := fun p => by
  obtain ⟨nodes, hn⟩ := h
  exact ⟨nodes p, (hn.list p).walk_next, (hn.list p).walk_prev, hn.records p⟩

section

variable {s : Ports F V} {lists : Lists F V} {nodes : Port → List Nat}

/-- A node in a list has its record. -/
theorem Nodes.load (h : Nodes s lists nodes) {p : Port} {a : Nat} (ha : a ∈ nodes p) :
    ∃ r, s.load a = .ok r ∧ s.record a = some r := by
  have hmem : s.record a ∈ (lists p).map some := by
    rw [← h.records p]
    exact List.mem_map_of_mem ha
  obtain ⟨r, -, hr⟩ := List.mem_map.mp hmem
  refine ⟨r, ?_, hr.symm⟩
  unfold Ports.load
  rw [← hr]

theorem Nodes.touch (h : Nodes s lists nodes) {p : Port} {o : Option Nat}
    (ho : ∀ a, o = some a → a ∈ nodes p) : s.touch o = .ok () := by
  cases o with
  | none => rfl
  | some a =>
    obtain ⟨r, hr, -⟩ := h.load (ho a rfl)
    unfold Ports.touch
    dsimp only
    rw [hr]
    rfl

theorem map_update_of_notMem {β : Type} {f : Nat → β} {a : Nat} {v : β} {l : List Nat}
    (h : a ∉ l) : l.map (Function.update f a v) = l.map f := by
  apply List.map_congr_left
  intro b hb
  apply Function.update_of_ne
  rintro rfl
  exact h hb

/-! ## One port of a call -/

theorem element_ok {i : Nat} (h : i < 65536) : element i = .ok ⟨i, h⟩ := dif_pos h

theorem element_beyond {i : Nat} (h : ¬i < 65536) : element i = .error (.beyond i) := dif_neg h

/-- The lists of the other ports stay. -/
theorem Nodes.other (h : Nodes s lists nodes) {next' prev' : Nat → Option Nat} {p p' : Port}
    (hne : p' ≠ p) {io' io_last' : Port → Option Nat} (hio : io' p' = s.io p')
    (hlast : io_last' p' = s.io_last p')
    (hn : ∀ a, a < s.calloc → a ∉ nodes p → next' a = s.next a)
    (hp : ∀ a, a < s.calloc → a ∉ nodes p → prev' a = s.prev a) :
    linked_list.IsList next' prev' (io' p') (io_last' p') (nodes p') := by
  rw [hio, hlast]
  exact (h.list p').congr
    (fun a ha => hn a (h.made p' a ha) (h.apart p' p hne a ha))
    (fun a ha => hp a (h.made p' a ha) (h.apart p' p hne a ha))

theorem at_port {i : Nat} (hi : i < 65536) (q : Port) : q.val = i ↔ q = ⟨i, hi⟩ := by
  rw [Fin.ext_iff]

theorem Nodes.last_mem (h : Nodes s lists nodes) {p : Port} {a : Nat}
    (ha : s.io_last p = some a) : a ∈ nodes p :=
  List.mem_of_mem_getLast? (by rw [← (h.list p).tail_eq, ha]; rfl)

/-- The list of the port, with the new record at its end. -/
theorem append_list (r : Io F V) (h : Nodes s lists nodes) (p : Port) :
    linked_list.IsList (append p r s).next (append p r s).prev ((append p r s).io p)
      ((append p r s).io_last p) (nodes p ++ [s.calloc]) := by
  have hlast : s.io_last p = (nodes p).getLast? := (h.list p).tail_eq
  have hnew : s.calloc ∉ nodes p ++ [] := by
    rw [List.append_nil]
    exact fun hno => Nat.lt_irrefl _ (h.made p _ hno)
  have hinsert := ((List.append_nil (nodes p)).symm ▸ h.list p).insert hnew
  have hhead : (if s.io_last p = none then Function.update s.io p (some s.calloc) else s.io) p =
      (nodes p).head?.or (some s.calloc) := by
    rw [hlast]
    cases hnodes : nodes p with
    | nil => simp
    | cons a rest =>
      rw [if_neg (by simp), (h.list p).head_eq, hnodes]
      rfl
  unfold append
  dsimp only
  rw [hhead, Function.update_self, hlast]
  exact hinsert

/-- The nodes of the ports, with the new one. -/
theorem append_nodes (r : Io F V) (h : Nodes s lists nodes) {i : Nat} (hi : i < 65536) :
    Nodes (append ⟨i, hi⟩ r s) (onPort i (fun records => records ++ [r]) lists)
      fun q => if q.val = i then nodes q ++ [s.calloc] else nodes q := by
  have hold : ∀ q, s.calloc ∉ nodes q := fun q hno => Nat.lt_irrefl _ (h.made q _ hno)
  have hsplit : ∀ q a, a ∈ (if q.val = i then nodes q ++ [s.calloc] else nodes q) →
      a ∈ nodes q ∨ a = s.calloc ∧ q.val = i := fun q a ha => by
    split_ifs at ha with hq
    · rcases List.mem_append.mp ha with ha | ha
      · exact Or.inl ha
      · exact Or.inr ⟨List.mem_singleton.mp ha, hq⟩
    · exact Or.inl ha
  refine ⟨fun q => ?_, fun q => ?_, fun q q' hne a ha ha' => ?_, fun q a ha => ?_⟩
  · by_cases hq : q.val = i
    · rw [if_pos hq]
      obtain rfl := (at_port hi q).mp hq
      exact append_list r h _
    · rw [if_neg hq]
      have hne : q ≠ ⟨i, hi⟩ := fun heq => hq ((at_port hi q).mpr heq)
      unfold append
      dsimp only
      refine h.other hne ?_ (Function.update_of_ne hne ..) (fun a ha hap => ?_)
        fun a ha _ => Function.update_of_ne (Nat.ne_of_lt ha) ..
      · split_ifs
        · exact Function.update_of_ne hne ..
        · rfl
      · rw [Function.update_of_ne (Nat.ne_of_lt ha)]
        exact linked_list.setOpt_of_ne _ _ _ _ fun hno => hap (h.last_mem hno)
  · unfold append onPort
    dsimp only
    split_ifs
    · rw [List.map_append, map_update_of_notMem (hold q), h.records q]
      simp
    · rw [map_update_of_notMem (hold q), h.records q]
  · rcases hsplit q a ha with hq | ⟨hnew, hq⟩
    · rcases hsplit q' a ha' with hq' | ⟨hnew, -⟩
      · exact h.apart q q' hne a hq hq'
      · exact hold q (hnew ▸ hq)
    · rcases hsplit q' a ha' with hq' | ⟨-, hq'⟩
      · exact hold q' (hnew ▸ hq')
      · exact hne (Fin.ext (hq.trans hq'.symm))
  · change a < s.calloc + 1
    rcases hsplit q a ha with hq | ⟨hnew, -⟩
    · exact Nat.lt_succ_of_lt (h.made q a hq)
    · omega

theorem set_one_spec (r : Io F V) (h : Nodes s lists nodes) {i : Nat} (hi : i < 65536) :
    set_one r s i = .ok (append ⟨i, hi⟩ r s) := by
  unfold set_one
  rw [element_ok hi]
  simp only [bind, Except.bind, h.touch fun a ha => h.last_mem ha]
  rfl

/-! ## The oldest equal record -/

/-- A list has no more nodes than there were ever made. -/
theorem Nodes.length_le (h : Nodes s lists nodes) (p : Port) : (nodes p).length ≤ s.calloc := by
  have hsub : nodes p ⊆ List.range s.calloc := fun a ha => List.mem_range.mpr (h.made p a ha)
  have hle := ((h.list p).nodup.subperm hsub).length_le
  rwa [List.length_range] at hle

variable [DecidableEq F] [DecidableEq V]

/-- The loop down a list comes to its end without the record, or stops at the first one. -/
theorem find_equal_spec (r : Io F V) {fuel : Nat} {o : Option Nat} {l : List Nat}
    {records : List (Io F V)} (hwalk : linked_list.Walk s.next o l)
    (hrecords : l.map s.record = records.map some) (hfuel : l.length ≤ fuel) :
    (find_equal r s fuel o = .ok none ∧ records.erase r = records) ∨
      ∃ l₁ a l₂, l = l₁ ++ a :: l₂ ∧ find_equal r s fuel o = .ok (some a) ∧
        (l₁ ++ l₂).map s.record = (records.erase r).map some := by
  induction l generalizing fuel o records with
  | nil =>
    left
    rw [show o = none from hwalk, List.map_eq_nil_iff.mp hrecords.symm]
    refine ⟨?_, rfl⟩
    cases fuel <;> rfl
  | cons a rest ih =>
    obtain ⟨rfl, hwalk⟩ := hwalk
    cases records with
    | nil => cases hrecords
    | cons r' records =>
      obtain ⟨hload, hrest⟩ := List.cons.inj hrecords
      cases fuel with
      | zero => exact absurd hfuel (by simp)
      | succ fuel =>
        have hget : s.load a = .ok r' := by
          unfold Ports.load
          rw [hload]
        have hturn : find_equal r s (fuel + 1) (some a) =
            if r' = r then .ok (some a) else find_equal r s fuel (s.next a) := by
          rw [find_equal]
          simp only [hget, bind, Except.bind]
          rfl
        rw [hturn]
        by_cases hr : r' = r
        · subst hr
          rw [if_pos rfl, List.erase_cons_head]
          exact Or.inr ⟨[], a, rest, rfl, rfl, hrest⟩
        · rw [if_neg hr, List.erase_cons_tail (by simpa using hr)]
          have hlen : rest.length ≤ fuel := Nat.le_of_succ_le_succ hfuel
          rcases ih hwalk hrest hlen with ⟨hfind, hsame⟩ | ⟨l₁, b, l₂, rfl, hfind, hmap⟩
          · exact Or.inl ⟨hfind, by rw [hsame]⟩
          · refine Or.inr ⟨a :: l₁, b, l₂, rfl, hfind, ?_⟩
            rw [List.cons_append, List.map_cons, List.map_cons, hmap, hload]

omit [DecidableEq F] [DecidableEq V] in
/-- A record goes out of the list of its port. -/
theorem unlink_nodes (h : Nodes s lists nodes) {i : Nat} (hi : i < 65536) {l₁ l₂ : List Nat}
    {a : Nat} (hnodes : nodes ⟨i, hi⟩ = l₁ ++ a :: l₂) {records : List (Io F V)}
    (hrecords : (l₁ ++ l₂).map s.record = records.map some) :
    Nodes (unlink ⟨i, hi⟩ a s) (onPort i (fun _ => records) lists)
      fun q => if q.val = i then l₁ ++ l₂ else nodes q := by
  have hlist := h.list ⟨i, hi⟩
  rw [hnodes] at hlist
  obtain ⟨hprev, hnext⟩ := linked_list.seg_mid hlist.seg
  rw [Option.or_none] at hprev hnext
  have hmem : ∀ b, b ∈ l₁ ++ l₂ → b ∈ nodes ⟨i, hi⟩ := fun b hb => by
    rw [hnodes]
    rcases List.mem_append.mp hb with hb | hb
    · exact List.mem_append_left _ hb
    · exact List.mem_append_right _ (List.mem_cons_of_mem a hb)
  have hself : a ∈ nodes ⟨i, hi⟩ := by
    rw [hnodes]
    exact List.mem_append_right _ List.mem_cons_self
  have hgone : a ∉ l₁ ++ l₂ := by
    have hnodup := hlist.nodup
    rw [List.nodup_middle] at hnodup
    exact (List.nodup_cons.mp hnodup).1
  have hsub : ∀ q b, b ∈ (if q.val = i then l₁ ++ l₂ else nodes q) → b ∈ nodes q := fun q b hb => by
    split_ifs at hb with hq
    · rw [(at_port hi q).mp hq]
      exact hmem b hb
    · exact hb
  refine ⟨fun q => ?_, fun q => ?_, fun q q' hne b hb hb' => ?_, fun q b hb => ?_⟩
  · by_cases hq : q.val = i
    · rw [if_pos hq]
      obtain rfl := (at_port hi q).mp hq
      have hhead : (unlink ⟨i, hi⟩ a s).io ⟨i, hi⟩ = l₁.head?.or l₂.head? := by
        unfold unlink
        dsimp only
        rw [hprev, hnext]
        cases l₁ with
        | nil => simp
        | cons b l₁ =>
          rw [if_neg (by simp [List.getLast?_cons]), hlist.head_eq]
          rfl
      have hlast : (unlink ⟨i, hi⟩ a s).io_last ⟨i, hi⟩ = l₂.getLast?.or l₁.getLast? := by
        unfold unlink
        dsimp only
        rw [hprev, hnext]
        cases l₂ with
        | nil => simp
        | cons b l₂ =>
          rw [if_neg (by simp), hlist.tail_eq, List.getLast?_append, List.getLast?_cons_cons]
      rw [hhead, hlast]
      unfold unlink
      dsimp only
      rw [hprev, hnext]
      exact hlist.remove
    · rw [if_neg hq]
      have hne : q ≠ ⟨i, hi⟩ := fun heq => hq ((at_port hi q).mpr heq)
      have hin : ∀ b, s.prev a = some b ∨ s.next a = some b → b ∈ nodes ⟨i, hi⟩ := fun b hb => by
        apply hmem
        rcases hb with hb | hb
        · exact List.mem_append_left _ (List.mem_of_mem_getLast? (by rw [← hprev, hb]; rfl))
        · exact List.mem_append_right _ (List.mem_of_mem_head? (by rw [← hnext, hb]; rfl))
      unfold unlink
      dsimp only
      refine h.other hne ?_ ?_ (fun b _ hbp => ?_) fun b _ hbp => ?_
      · split_ifs
        · exact Function.update_of_ne hne ..
        · rfl
      · split_ifs
        · exact Function.update_of_ne hne ..
        · rfl
      · exact linked_list.setOpt_of_ne _ _ _ _ fun hno => hbp (hin b (Or.inl hno))
      · exact linked_list.setOpt_of_ne _ _ _ _ fun hno => hbp (hin b (Or.inr hno))
  · unfold unlink onPort
    dsimp only
    by_cases hq : q.val = i
    · rw [if_pos hq, if_pos hq, map_update_of_notMem hgone, hrecords]
    · rw [if_neg hq, if_neg hq, map_update_of_notMem, h.records q]
      exact fun hno => h.apart q ⟨i, hi⟩ (fun heq => hq ((at_port hi q).mpr heq)) a hno hself
  · exact h.apart q q' hne b (hsub q b hb) (hsub q' b hb')
  · exact h.made q b (hsub q b hb)

theorem remove_one_spec (r : Io F V) (h : Nodes s lists nodes) {i : Nat} (hi : i < 65536) :
    ∃ s', remove_one r s i = .ok s' ∧
      Intact s' (onPort i (fun records => records.erase r) lists) := by
  have hlist := h.list ⟨i, hi⟩
  have hrecords := h.records ⟨i, hi⟩
  unfold remove_one
  rw [element_ok hi]
  rcases find_equal_spec r hlist.walk_next hrecords (h.length_le ⟨i, hi⟩) with
    ⟨hfind, hsame⟩ | ⟨l₁, a, l₂, hnodes, hfind, hmap⟩
  · refine ⟨s, ?_, nodes, ?_⟩
    · simp only [bind, Except.bind, hfind]
      rfl
    · have heq : onPort i (fun records => records.erase r) lists = lists := funext fun q => by
        unfold onPort
        split_ifs with hq
        · rw [(at_port hi q).mp hq]
          exact hsame
        · rfl
      rw [heq]
      exact h
  · rw [hnodes] at hlist
    obtain ⟨hprev, hnext⟩ := linked_list.seg_mid hlist.seg
    rw [Option.or_none] at hprev hnext
    have htouch₁ : s.touch (s.prev a) = .ok () :=
      @Nodes.touch _ _ s lists nodes h ⟨i, hi⟩ _ fun b hb => by
      rw [hnodes]
      exact List.mem_append_left _ (List.mem_of_mem_getLast? (by rw [← hprev, hb]; rfl))
    have htouch₂ : s.touch (s.next a) = .ok () :=
      @Nodes.touch _ _ s lists nodes h ⟨i, hi⟩ _ fun b hb => by
      rw [hnodes]
      refine List.mem_append_right _ (List.mem_cons_of_mem a (List.mem_of_mem_head? ?_))
      rw [← hnext, hb]
      rfl
    refine ⟨unlink ⟨i, hi⟩ a s, ?_, fun q => if q.val = i then l₁ ++ l₂ else nodes q, ?_⟩
    · simp only [bind, Except.bind, hfind, htouch₁, htouch₂]
      rfl
    · have hunlinked := unlink_nodes h hi hnodes hmap
      have heq : onPort i (fun _ => (lists ⟨i, hi⟩).erase r) lists =
          onPort i (fun records => records.erase r) lists := funext fun q => by
        unfold onPort
        split_ifs with hq
        · rw [(at_port hi q).mp hq]
        · rfl
      rw [← heq]
      exact hunlinked

end

/-! ## Runs -/

section

variable [DecidableEq F] [DecidableEq V] {s : Ports F V} {lists : Lists F V}

/-- The error of an access beyond the arrays. -/
def Beyond (e : Fault) : Prop := ∃ i, 65535 < i ∧ e = .beyond i

/-- Every port of a call is one of the 64K. -/
def Call.Fits (call : Call F V) : Prop := ∀ i ∈ call.range.indices, i < 65536

omit [DecidableEq F] [DecidableEq V] in
theorem set_ports (r : Io F V) (h : Intact s lists) (i : Nat) :
    guarded.Checked (set_one r s i) (i < 65536)
      (fun s' => Intact s' (onPort i (fun records => records ++ [r]) lists)) Beyond := by
  obtain ⟨nodes, h⟩ := h
  by_cases hi : i < 65536
  · exact .of_ok (set_one_spec r h hi) hi ⟨_, append_nodes r h hi⟩
  · unfold set_one
    rw [element_beyond hi]
    exact ⟨hi, i, by omega, rfl⟩

theorem remove_ports (r : Io F V) (h : Intact s lists) (i : Nat) :
    guarded.Checked (remove_one r s i) (i < 65536)
      (fun s' => Intact s' (onPort i (fun records => records.erase r) lists)) Beyond := by
  obtain ⟨nodes, h⟩ := h
  by_cases hi : i < 65536
  · obtain ⟨s', hs', hintact⟩ := remove_one_spec r h hi
    exact .of_ok hs' hi hintact
  · unfold remove_one
    rw [element_beyond hi]
    exact ⟨hi, i, by omega, rfl⟩

/-- A call does to the lists what it does to the plain ones, unless it goes beyond the arrays. -/
theorem call_spec (call : Call F V) (h : Intact s lists) :
    guarded.Checked (io_handler_common s call) call.Fits
      (fun s' => Intact s' (call.onLists lists)) Beyond := by
  unfold io_handler_common Call.onLists
  cases call.set with
  | true =>
    rw [if_pos rfl, if_pos rfl, ← onRange_eq]
    have hport := fun (s : Ports F V) (l : Lists F V) i (hs : Intact s l) =>
      set_ports call.record hs i
    exact guarded.checked_foldlM hport h _
  | false =>
    rw [if_neg Bool.false_ne_true, if_neg Bool.false_ne_true, ← onRange_eq]
    have hport := fun (s : Ports F V) (l : Lists F V) i (hs : Intact s l) =>
      remove_ports call.record hs i
    exact guarded.checked_foldlM hport h _

end

/-- Whatever calls the devices make: the list of each port reads the same from either end, and
holds what the calls leave of it, just when each call stays within the 64K ports. One that does
not reaches beyond the arrays. -/
theorem the_lists_stay_intact [DecidableEq F] [DecidableEq V] (calls : List (Call F V)) :
    ((∃ s, calls.foldlM io_handler_common empty = .ok s ∧
      ReadsAs s (calls.foldl Call.onLists fun _ => [])) ↔ ∀ call ∈ calls, call.Fits) ∧
      ∀ e, calls.foldlM io_handler_common empty = .error e → Beyond e := by
  have hcall := fun (s : Ports F V) (l : Lists F V) call (hs : Intact s l) => call_spec call hs
  have hrun := guarded.checked_foldlM hcall intact_empty calls
  constructor
  · constructor
    · rintro ⟨s, hs, -⟩
      exact hrun.isOk_iff.mp ⟨s, hs⟩
    · intro hfits
      obtain ⟨s, hs⟩ := hrun.isOk_iff.mpr hfits
      rw [hs] at hrun
      exact ⟨s, hs, hrun.2.readsAs⟩
  · intro e he
    rw [he] at hrun
    exact hrun.2

/-- Two ports from the last one on. -/
def pastTheEnd : Call Unit Unit where
  set := true
  range := ⟨0xffff, 2, 1, Nat.one_pos⟩
  record := ⟨some (), none, none, none, none, none, ()⟩

/-- The range goes past the last port, and the call past the arrays. -/
theorem a_range_past_the_end_goes_beyond :
    ¬∀ (F V : Type) [DecidableEq F] [DecidableEq V] (calls : List (Call F V)) (e : Fault),
      calls.foldlM io_handler_common empty = .error e → ¬Beyond e := by
  intro h
  exact h Unit Unit [pastTheEnd] (.beyond 65536) rfl ⟨65536, by decide, rfl⟩

end blumach.io
