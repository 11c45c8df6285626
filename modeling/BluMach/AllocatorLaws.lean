-- The laws of the allocator. The owners stand in a well-formed list, until the
-- removal of a first owner with others behind it: that leaves the old first
-- owner before the new one. The pool itself stays sound: chains and free list
-- never share a block.
import BluMach.Allocator
import Mathlib.Data.Fintype.Card
import Mathlib.Data.List.Perm.Subperm

namespace blumach.codegen_allocator

open linked_list

/-! ## The list of owners -/

/-- From the head along `next` stand the owners, each once, up to the tail, and
from the tail along `prev` the same in reverse. -/
def ListWellFormed (s : AllocState) : Prop :=
  ∃ l, Walk s.cb_next s.mem_code_block_head l ∧ s.mem_code_block_tail = l.getLast? ∧
    Walk s.cb_prev s.mem_code_block_tail l.reverse ∧ l.Nodup ∧
    ∀ n, n ∈ l ↔ s.valid_code_blocks n = true

/-- The invariant of the list. A code block out of the list has no links. -/
structure OwnersGood (s : AllocState) (l : List CodeBlock) : Prop where
  list : IsList s.cb_next s.cb_prev s.mem_code_block_head s.mem_code_block_tail l
  owners : ∀ n, n ∈ l ↔ s.valid_code_blocks n = true
  numbers : ∀ n ∈ l, s.cb_number n = n
  unlinked : ∀ n, n ∉ l → s.cb_next n = none ∧ s.cb_prev n = none

theorem OwnersGood.wellFormed {s : AllocState} {l : List CodeBlock} (h : OwnersGood s l) :
    ListWellFormed s :=
  ⟨l, h.list.walk_next, h.list.tail_eq, h.list.walk_prev, h.list.nodup, h.owners⟩

/-- The states with the same list. -/
structure SameList (s s' : AllocState) : Prop where
  valid_code_blocks : s'.valid_code_blocks = s.valid_code_blocks
  cb_prev : s'.cb_prev = s.cb_prev
  cb_next : s'.cb_next = s.cb_next
  cb_number : s'.cb_number = s.cb_number
  head : s'.mem_code_block_head = s.mem_code_block_head
  tail : s'.mem_code_block_tail = s.mem_code_block_tail

theorem OwnersGood.same {s s' : AllocState} {l : List CodeBlock} (h : OwnersGood s l)
    (e : SameList s s') : OwnersGood s' l := by
  obtain ⟨e1, e2, e3, e4, e5, e6⟩ := e
  refine ⟨?_, ?_, ?_, ?_⟩
  · rw [e2, e3, e5, e6]; exact h.list
  · rw [e1]; exact h.owners
  · rw [e4]; exact h.numbers
  · rw [e2, e3]; exact h.unlinked

theorem ListWellFormed.same {s s' : AllocState} (h : ListWellFormed s) (e : SameList s s') :
    ListWellFormed s' := by
  obtain ⟨e1, e2, e3, -, e5, e6⟩ := e
  unfold ListWellFormed
  rw [e1, e2, e3, e5, e6]
  exact h

/-- The first owner, with others behind it. -/
def HeadOfMany (s : AllocState) (n : CodeBlock) : Prop :=
  s.mem_code_block_head = some n ∧ s.cb_next n ≠ none

/-- What the removal of `n` from between `l₁` and `l₂` should do. -/
theorem owners_of_remove {s s' : AllocState} {l₁ l₂ : List CodeBlock} {n : CodeBlock}
    (h : OwnersGood s (l₁ ++ n :: l₂))
    (hv : s'.valid_code_blocks = Function.update s.valid_code_blocks n false)
    (hnum : s'.cb_number = s.cb_number)
    (hn : s'.cb_next = Function.update (setOpt s.cb_next l₁.getLast? l₂.head?) n none)
    (hp : s'.cb_prev = Function.update (setOpt s.cb_prev l₂.head? l₁.getLast?) n none)
    (hh : s'.mem_code_block_head = l₁.head?.or l₂.head?)
    (ht : s'.mem_code_block_tail = l₂.getLast?.or l₁.getLast?) : OwnersGood s' (l₁ ++ l₂) := by
  have hd : n ∉ l₁ ++ l₂ := by
    have := h.list.nodup
    rw [List.nodup_middle, List.nodup_cons] at this
    exact this.1
  have hmem : ∀ m, m ∈ l₁ ++ n :: l₂ ↔ m = n ∨ m ∈ l₁ ++ l₂ := by
    intro m
    simp only [List.mem_append, List.mem_cons]
    tauto
  refine ⟨?_, ?_, ?_, ?_⟩
  · rw [hh, ht]
    apply IsList.congr h.list.remove
    · intro m hm
      have hne : m ≠ n := by rintro rfl; exact hd hm
      rw [hn, Function.update_of_ne hne]
    · intro m hm
      have hne : m ≠ n := by rintro rfl; exact hd hm
      rw [hp, Function.update_of_ne hne]
  · intro m
    rw [hv]
    by_cases hmn : m = n
    · subst hmn
      simp [hd]
    · rw [Function.update_of_ne hmn, ← h.owners, hmem]
      simp [hmn]
  · intro m hm
    rw [hnum]
    exact h.numbers m ((hmem m).mpr (Or.inr hm))
  · intro m hm
    rw [hn, hp]
    by_cases hmn : m = n
    · subst hmn
      simp
    · have hml : m ∉ l₁ ++ n :: l₂ := by
        rw [hmem]
        simp [hmn, hm]
      rw [Function.update_of_ne hmn, Function.update_of_ne hmn, setOpt_of_ne, setOpt_of_ne]
      · exact h.unlinked m hml
      · intro hl
        exact hm (List.mem_append.mpr (Or.inr (List.mem_of_mem_head? hl)))
      · intro hl
        exact hm (List.mem_append.mpr (Or.inl (List.mem_of_mem_getLast? hl)))

theorem remove_good {s : AllocState} {l₁ l₂ : List CodeBlock} {n : CodeBlock}
    (h : OwnersGood s (l₁ ++ n :: l₂)) (hk : ¬HeadOfMany s n) :
    OwnersGood (remove_from_block_list n s) (l₁ ++ l₂) := by
  have hnum := h.numbers n (by simp)
  obtain ⟨hprev, hnext⟩ := seg_mid h.list.seg
  rw [Option.or_none] at hprev hnext
  have hhead := h.list.head_eq
  have htail := h.list.tail_eq
  rcases List.eq_nil_or_concat l₁ with rfl | ⟨l₁, p, rfl⟩
  · -- The first owner: there is no other.
    cases l₂ with
    | cons b l₂ => exact absurd ⟨hhead, by rw [hnext]; simp⟩ hk
    | nil =>
      have hp : s.cb_prev n = none := hprev
      have hn : s.cb_next n = none := hnext
      have hh : s.mem_code_block_head = some n := hhead
      apply owners_of_remove h <;> simp [remove_from_block_list, hp, hn, hh, hnum, setOpt]
  · rw [List.concat_eq_append] at *
    rw [List.getLast?_concat] at hprev
    have hne : n ≠ p := by
      have := h.list.nodup
      rw [List.append_assoc, List.nodup_append] at this
      rintro rfl
      simp at this
    cases l₂ with
    | nil =>
      have hn : s.cb_next n = none := hnext
      apply owners_of_remove h <;>
        simp [remove_from_block_list, hprev, hn, hnum, hne, setOpt, hhead]
    | cons b l₂ =>
      have hn : s.cb_next n = some b := hnext
      have ht : (l₁ ++ [p] ++ n :: b :: l₂).getLast? = (b :: l₂).getLast? := by
        simp [List.getLast?_cons]
      apply owners_of_remove h <;>
        simp [remove_from_block_list, hprev, hn, hnum, hne, setOpt, hhead, htail,
          List.getLast?_cons]

/-- The first owner has one before it. -/
def Broken (s : AllocState) : Prop :=
  ∃ b p, s.mem_code_block_head = some b ∧ s.cb_prev b = some p ∧ s.valid_code_blocks b = true

theorem Broken.not_wellFormed {s : AllocState} (h : Broken s) : ¬ListWellFormed s := by
  obtain ⟨b, p, hb, hp, -⟩ := h
  rintro ⟨l, hw, -, hw', -⟩
  rw [hb] at hw
  cases l with
  | nil => exact absurd hw (by simp [Walk])
  | cons c l =>
    obtain rfl := Option.some.inj hw.1
    rw [List.reverse_cons] at hw'
    have := walk_mid hw'
    rw [hp] at this
    exact absurd this (by simp)

/-- The removal of a first owner leaves it before the next one. -/
theorem remove_head_breaks {s : AllocState} {l : List CodeBlock} {n : CodeBlock}
    (h : OwnersGood s l) (hk : HeadOfMany s n) : Broken (remove_from_block_list n s) := by
  obtain ⟨hhead, hmany⟩ := hk
  have hl := h.list.head_eq
  rw [hhead] at hl
  have hp : s.cb_prev n = none :=
    (h.list.prev_eq_none_iff (List.mem_of_mem_head? hl.symm)).mpr hhead
  cases l with
  | nil => exact absurd hl (by simp)
  | cons a l =>
    obtain rfl : n = a := by simpa using hl
    cases l with
    | nil =>
      obtain ⟨-, h2⟩ := seg_first h.list.seg
      exact absurd h2 hmany
    | cons b l =>
      obtain ⟨-, hnb⟩ := seg_first h.list.seg
      obtain ⟨hbn, hbc⟩ := seg_first h.list.seg.2.2
      have hd := h.list.nodup
      have hne : n ≠ b := by
        simp at hd
        tauto
      refine ⟨b, n, ?_, ?_, ?_⟩
      · unfold remove_from_block_list
        simp only [hp, hnb, List.head?_cons, Option.some_or]
        split <;> rfl
      · unfold remove_from_block_list
        simp only [hp, hnb, List.head?_cons, Option.some_or]
        rw [Function.update_of_ne hne.symm]
        split
        · rename_i c hc
          have hcb : b ≠ c := by
            rintro rfl
            rw [hc, Option.or_none] at hbc
            cases l with
            | nil => exact absurd hbc (by simp)
            | cons d l =>
              obtain rfl : b = d := by simpa using hbc
              simp at hd
          simp only [Function.update_of_ne hcb]
          exact hbn
        · exact hbn
      · have hb : s.valid_code_blocks b = true := (h.owners b).mp (by simp)
        have hnum := h.numbers n (by simp)
        unfold remove_from_block_list
        simp only [hp, hnb, hnum, List.head?_cons, Option.some_or]
        split <;> simpa [hne.symm] using hb

theorem add_good {s : AllocState} {l : List CodeBlock} {n : CodeBlock} (h : OwnersGood s l)
    (hn : n ∉ l) :
    OwnersGood (add_to_block_list n { s with
      valid_code_blocks := Function.update s.valid_code_blocks n true }) (l ++ [n]) := by
  obtain ⟨hnn, hnp⟩ := h.unlinked n hn
  have hlist : IsList s.cb_next s.cb_prev s.mem_code_block_head s.mem_code_block_tail
      (l ++ []) := by rw [List.append_nil]; exact h.list
  have hins := hlist.insert (show n ∉ l ++ [] by rw [List.append_nil]; exact hn)
  have hown : ∀ m, m ∈ l ++ [n] ↔ Function.update s.valid_code_blocks n true m = true := by
    intro m
    by_cases hmn : m = n
    · subst hmn
      simp
    · rw [Function.update_of_ne hmn, ← h.owners]
      simp [hmn]
  have hnum : ∀ m ∈ l ++ [n], Function.update s.cb_number n n m = m := by
    intro m hm
    by_cases hmn : m = n
    · subst hmn
      simp
    · rw [Function.update_of_ne hmn]
      exact h.numbers m (by simpa [hmn] using hm)
  have hhead := h.list.head_eq
  have htail := h.list.tail_eq
  rcases List.eq_nil_or_concat l with rfl | ⟨l, t, rfl⟩
  · have hh : s.mem_code_block_head = none := hhead
    simp only [add_to_block_list, hh]
    refine ⟨?_, hown, hnum, ?_⟩
    · apply IsList.congr hins
      · intro m hm
        obtain rfl : m = n := by simpa using hm
        simpa using hnn
      · intro m hm
        obtain rfl : m = n := by simpa using hm
        simpa using hnp
    · intro m hm
      exact h.unlinked m (by simp)
  · rw [List.concat_eq_append] at *
    have ht : s.mem_code_block_tail = some t := by rw [htail, List.getLast?_concat]
    obtain ⟨x, hx⟩ : ∃ x, s.mem_code_block_head = some x := by
      rw [hhead]
      cases l with
      | nil => exact ⟨t, rfl⟩
      | cons y l => exact ⟨y, rfl⟩
    have hnt : n ≠ t := by
      rintro rfl
      simp at hn
    simp only [add_to_block_list, hx, ht]
    rw [List.getLast?_concat, List.head?_append, ← List.head?_append, ← hhead] at hins
    refine ⟨?_, hown, hnum, ?_⟩
    · rw [hx] at hins
      apply IsList.congr hins
      · intro m _
        by_cases hmn : m = n
        · subst hmn
          simpa [hnt] using hnn
        · simp [setOpt, hmn]
      · intro m _
        rfl
    · intro m hm
      have hmn : m ≠ n := by
        rintro rfl
        simp at hm
      have hmt : m ≠ t := by
        rintro rfl
        simp at hm
      simp only [Function.update_of_ne hmn, Function.update_of_ne hmt]
      exact h.unlinked m fun hml => hm (by simp only [List.mem_append] at hml ⊢; tauto)

/-- `remove_from_block_list` leaves the pool and the code blocks alone. -/
theorem remove_frame (n : CodeBlock) (s : AllocState) :
    (remove_from_block_list n s).mem_blocks = s.mem_blocks ∧
      (remove_from_block_list n s).mem_block_free_list = s.mem_block_free_list ∧
      (remove_from_block_list n s).valid = s.valid ∧
      (remove_from_block_list n s).head_mem_block = s.head_mem_block := by
  unfold remove_from_block_list
  simp only []
  split
  · split <;> exact ⟨rfl, rfl, rfl, rfl⟩
  · split
    · split <;> exact ⟨rfl, rfl, rfl, rfl⟩
    · split <;> exact ⟨rfl, rfl, rfl, rfl⟩

theorem add_frame (n : CodeBlock) (s : AllocState) :
    (add_to_block_list n s).mem_blocks = s.mem_blocks ∧
      (add_to_block_list n s).mem_block_free_list = s.mem_block_free_list ∧
      (add_to_block_list n s).valid = s.valid ∧
      (add_to_block_list n s).head_mem_block = s.head_mem_block := by
  unfold add_to_block_list
  split <;> exact ⟨rfl, rfl, rfl, rfl⟩

/-! ## The pool -/

/-- The index of block number `nr`. -/
def blockAt : Nat → Option Nat
  | 0 => none
  | nr + 1 => some nr

/-- The block after `b`, in a chain or in the free list. -/
def link (s : AllocState) (b : Nat) : Option Nat := blockAt (s.mem_blocks b).next

/-- The invariant of the pool: `free` is the free list and `chain n` the chain
of code block `n`. -/
structure PoolGood (MEM_BLOCK_NR : Nat) (s : AllocState) (free : List Nat)
    (chain : CodeBlock → List Nat) : Prop where
  free_walk : Walk (link s) (blockAt s.mem_block_free_list) free
  free_nodup : free.Nodup
  free_bounded : ∀ b ∈ free, b < MEM_BLOCK_NR
  chain_walk : ∀ n, Walk (link s) (s.head_mem_block n) (chain n)
  chain_nodup : ∀ n, (chain n).Nodup
  chain_bounded : ∀ n, ∀ b ∈ chain n, b < MEM_BLOCK_NR
  chain_tail : ∀ n h, s.head_mem_block n = some h →
    blockAt (s.mem_blocks h).tail = if chain n = [h] then none else (chain n).getLast?
  chain_code : ∀ n h, s.head_mem_block n = some h → (s.mem_blocks h).code_block = n
  chain_free : ∀ n, ∀ b ∈ chain n, b ∉ free
  chain_disjoint : ∀ m n, m ≠ n → ∀ b ∈ chain m, b ∉ chain n

theorem length_le_of_bounded {l : List Nat} {k : Nat} (hd : l.Nodup) (hb : ∀ b ∈ l, b < k) :
    l.length ≤ k := by
  have hsub : l ⊆ List.range k := fun b h => List.mem_range.mpr (hb b h)
  have := (List.subperm_of_subset hd hsub).length_le
  rwa [List.length_range] at this

theorem blockAt_sub {nr : Nat} (h : nr ≠ 0) : blockAt nr = some (nr - 1) := by
  cases nr with
  | zero => exact absurd rfl h
  | succ k => rfl

/-- One turn of the loop. -/
def freeOne (block_nr block : Nat) (s : AllocState) : AllocState :=
  { modifyBlock block (fun b => { b with next := s.mem_block_free_list, code_block := 0 })
      { s with codegen_allocator_usage := s.codegen_allocator_usage - 1 } with
    mem_block_free_list := block_nr }

theorem freeLoop_succ (fuel block_nr block : Nat) (s : AllocState) :
    freeLoop (fuel + 1) block_nr block s =
      if (s.mem_blocks block).next ≠ 0 then
        freeLoop fuel (s.mem_blocks block).next ((s.mem_blocks block).next - 1)
          (freeOne block_nr block s)
      else some (freeOne block_nr block s) := rfl

theorem freeOne_mem_ne (block_nr b x : Nat) (s : AllocState) (h : x ≠ b) :
    (freeOne block_nr b s).mem_blocks x = s.mem_blocks x := by
  simp [freeOne, modifyBlock, h]

/-- The freed block leads the free list. -/
theorem freeOne_walk (b : Nat) (s : AllocState) (free : List Nat)
    (hf : Walk (link s) (blockAt s.mem_block_free_list) free) (hb : b ∉ free) :
    Walk (link (freeOne (b + 1) b s)) (blockAt (b + 1)) (b :: free) := by
  refine ⟨rfl, ?_⟩
  have hl : link (freeOne (b + 1) b s) b = blockAt s.mem_block_free_list := by
    simp [link, freeOne, modifyBlock]
  rw [hl]
  apply walk_congr _ hf
  intro x hx
  have hxb : x ≠ b := by
    rintro rfl
    exact hb hx
  unfold link
  rw [freeOne_mem_ne _ _ _ _ hxb]

/-- A chain freed block by block stands in reverse on the free list. -/
theorem freeLoop_spec (fuel b : Nat) (c : List Nat) (s : AllocState) (free : List Nat)
    (hlen : (b :: c).length ≤ fuel) (hw : Walk (link s) (some b) (b :: c))
    (hd : (b :: c).Nodup) (hf : Walk (link s) (blockAt s.mem_block_free_list) free)
    (hdis : ∀ x ∈ b :: c, x ∉ free) :
    ∃ mb fl u, freeLoop fuel (b + 1) b s = some { s with
        mem_blocks := mb, mem_block_free_list := fl, codegen_allocator_usage := u } ∧
      Walk (fun x => blockAt (mb x).next) (blockAt fl) ((b :: c).reverse ++ free) ∧
      (∀ x, x ∉ b :: c → mb x = s.mem_blocks x) ∧ fl ≠ 0 ∧
      u = s.codegen_allocator_usage - (b :: c).length := by
  induction c generalizing fuel b s free with
  | nil =>
    obtain ⟨fuel, rfl⟩ : ∃ k, fuel = k + 1 := ⟨fuel - 1, by simp at hlen; omega⟩
    have hnext : (s.mem_blocks b).next = 0 := by
      by_contra h0
      have hl : link s b = none := hw.2
      rw [link, blockAt_sub h0] at hl
      exact absurd hl (by simp)
    rw [freeLoop_succ, if_neg (by rw [hnext]; simp)]
    refine ⟨_, _, _, rfl, freeOne_walk b s free hf (hdis b (by simp)), ?_, Nat.succ_ne_zero b, rfl⟩
    intro x hx
    exact freeOne_mem_ne (b + 1) b x s (by simpa using hx)
  | cons d c ih =>
    obtain ⟨fuel, rfl⟩ : ∃ k, fuel = k + 1 := ⟨fuel - 1, by simp at hlen; omega⟩
    have hl : link s b = some d := hw.2.1
    have hnext : (s.mem_blocks b).next = d + 1 := by
      cases hn : (s.mem_blocks b).next with
      | zero =>
        rw [link, hn] at hl
        exact absurd hl (by simp [blockAt])
      | succ k =>
        rw [link, hn] at hl
        rw [Option.some.inj hl]
    obtain ⟨hbc, hdc⟩ := List.nodup_cons.mp hd
    have hne : ∀ x ∈ d :: c, x ≠ b := by
      rintro x hx rfl
      exact hbc hx
    rw [freeLoop_succ, hnext, if_pos (Nat.succ_ne_zero d), Nat.add_sub_cancel]
    obtain ⟨mb, fl, u, h1, h2, h3, h4, h5⟩ := ih fuel d (freeOne (b + 1) b s) (b :: free)
      (by simp at hlen ⊢; omega) (by
        apply walk_congr _ (hl ▸ hw.2)
        intro x hx
        unfold link
        rw [freeOne_mem_ne _ _ _ _ (hne x hx)]) hdc
          (freeOne_walk b s free hf (hdis b (by simp))) (by
        intro x hx
        rw [List.mem_cons, not_or]
        exact ⟨hne x hx, hdis x (by simp [hx])⟩)
    refine ⟨mb, fl, u, h1, ?_, ?_, h4, ?_⟩
    · rw [List.reverse_cons, List.append_assoc]
      exact h2
    · intro x hx
      rw [List.mem_cons, not_or] at hx
      rw [h3 x hx.2, freeOne_mem_ne _ _ _ _ hx.1]
    · have hone : (freeOne (b + 1) b s).codegen_allocator_usage = s.codegen_allocator_usage - 1 :=
        rfl
      rw [h5, hone]
      simp only [List.length_cons]
      omega

/-- `remove_from_block_list` does not read the pool. -/
theorem remove_pool (n : CodeBlock) (s : AllocState) (mb : Nat → MemBlock) :
    remove_from_block_list n { s with mem_blocks := mb } =
      { remove_from_block_list n s with mem_blocks := mb } := by
  unfold remove_from_block_list
  simp only []
  rcases hp : s.cb_prev n with _ | p
  · rcases hn : s.cb_next n with _ | m
    · simp only []
      split <;> rfl
    · simp only []
      split <;> rfl
  · simp only []
    split <;> rfl

theorem head_mem_chain {MEM_BLOCK_NR : Nat} {s : AllocState} {free : List Nat}
    {chain : CodeBlock → List Nat} (hp : PoolGood MEM_BLOCK_NR s free chain) {n : CodeBlock}
    {b : Nat} (hb : s.head_mem_block n = some b) : ∃ c, chain n = b :: c := by
  have hw := walk_head (hp.chain_walk n)
  rw [hb] at hw
  cases hcn : chain n with
  | nil =>
    rw [hcn] at hw
    exact absurd hw (by simp)
  | cons x c =>
    rw [hcn] at hw
    exact ⟨c, by rw [Option.some.inj hw]⟩

section

variable {MEM_BLOCK_NR : Nat} {s t : AllocState} {free : List Nat}
  {chain : CodeBlock → List Nat} {n m : CodeBlock}

/-- A chain whose blocks stay as they were. -/
theorem PoolGood.kept (hp : PoolGood MEM_BLOCK_NR s free chain)
    (hh : t.head_mem_block m = s.head_mem_block m)
    (hm : ∀ x ∈ chain m, t.mem_blocks x = s.mem_blocks x) :
    Walk (link t) (t.head_mem_block m) (chain m) ∧
      ∀ h, t.head_mem_block m = some h →
        blockAt (t.mem_blocks h).tail = (if chain m = [h] then none else (chain m).getLast?) ∧
          (t.mem_blocks h).code_block = m := by
  rw [hh]
  constructor
  · refine walk_congr (fun x hx => ?_) (hp.chain_walk m)
    unfold link
    rw [hm x hx]
  · intro h hmh
    obtain ⟨c, hc⟩ := head_mem_chain hp hmh
    rw [hm h (by rw [hc]; exact List.mem_cons_self)]
    exact ⟨hp.chain_tail m h hmh, hp.chain_code m h hmh⟩

/-- A block of a chain without that of `n`. -/
theorem mem_emptied {x : Nat} (hx : x ∈ Function.update chain n [] m) : x ∈ chain m ∧ m ≠ n := by
  by_cases hmn : m = n
  · rw [hmn, Function.update_self] at hx
    cases hx
  · rw [Function.update_of_ne hmn] at hx
    exact ⟨hx, hmn⟩

/-- The invariant of the pool after the chain of `n` went to the free list. -/
theorem pool_freed (hp : PoolGood MEM_BLOCK_NR s free chain) (n : CodeBlock)
    (hh : t.head_mem_block = Function.update s.head_mem_block n none)
    (hw : Walk (link t) (blockAt t.mem_block_free_list) ((chain n).reverse ++ free))
    (hm : ∀ x, x ∉ chain n → t.mem_blocks x = s.mem_blocks x) :
    PoolGood MEM_BLOCK_NR t ((chain n).reverse ++ free) (Function.update chain n []) := by
  have hnone : t.head_mem_block n = none := by rw [hh, Function.update_self]
  have howner : ∀ m h, t.head_mem_block m = some h → m ≠ n := by
    rintro m h hmh rfl
    cases hnone.symm.trans hmh
  have hkept : ∀ m, m ≠ n → _ := fun m hmn =>
    hp.kept (t := t) (m := m) (by rw [hh, Function.update_of_ne hmn])
      fun x hx => hm x (hp.chain_disjoint m n hmn x hx)
  refine
    { free_walk := hw
      free_nodup := ?_
      free_bounded := fun x hx => ?_
      chain_walk := fun m => ?_
      chain_nodup := fun m => ?_
      chain_bounded := fun m x hx => hp.chain_bounded m x (mem_emptied hx).1
      chain_tail := fun m h hmh => ?_
      chain_code := fun m h hmh => ?_
      chain_free := fun m x hx hxf => ?_
      chain_disjoint := fun m k hmk x hx hx' => ?_ }
  · refine List.nodup_append.mpr ⟨List.nodup_reverse.mpr (hp.chain_nodup n), hp.free_nodup, ?_⟩
    rintro x hx y hy rfl
    exact hp.chain_free n x (List.mem_reverse.mp hx) hy
  · rcases List.mem_append.mp hx with hx | hx
    · exact hp.chain_bounded n x (List.mem_reverse.mp hx)
    · exact hp.free_bounded x hx
  · by_cases hmn : m = n
    · rw [hmn, hnone, Function.update_self]
      rfl
    · rw [Function.update_of_ne hmn]
      exact (hkept m hmn).1
  · by_cases hmn : m = n
    · rw [hmn, Function.update_self]
      exact List.nodup_nil
    · rw [Function.update_of_ne hmn]
      exact hp.chain_nodup m
  · have hmn : m ≠ n := howner m h hmh
    rw [Function.update_of_ne hmn]
    exact ((hkept m hmn).2 h hmh).1
  · have hmn : m ≠ n := howner m h hmh
    exact ((hkept m hmn).2 h hmh).2
  · obtain ⟨hx, hmn⟩ := mem_emptied hx
    rcases List.mem_append.mp hxf with hxf | hxf
    · exact hp.chain_disjoint m n hmn x hx (List.mem_reverse.mp hxf)
    · exact hp.chain_free m x hx hxf
  · exact hp.chain_disjoint m k hmk x (mem_emptied hx).1 (mem_emptied hx').1

end

/-- The free of the chain of an owner: the owner leaves the list, and its blocks
are on the free list. -/
theorem free_spec {MEM_BLOCK_NR : Nat} {s : AllocState} {free : List Nat}
    {chain : CodeBlock → List Nat} (hp : PoolGood MEM_BLOCK_NR s free chain) {n : CodeBlock}
    {b : Nat} (hb : s.head_mem_block n = some b) (hv : s.valid_code_blocks n = true) :
    ∃ s', codegen_allocator_free MEM_BLOCK_NR b s = some s' ∧
      SameList (remove_from_block_list n s) s' ∧ s'.valid = s.valid ∧
      s'.head_mem_block = s.head_mem_block ∧ s'.mem_block_free_list ≠ 0 ∧
      PoolGood MEM_BLOCK_NR
        { s' with head_mem_block := Function.update s'.head_mem_block n none }
        ((chain n).reverse ++ free) (Function.update chain n []) := by
  obtain ⟨c, hc⟩ := head_mem_chain hp hb
  let mb : Nat → MemBlock :=
    Function.update s.mem_blocks b { s.mem_blocks b with tail := 0 }
  have hmb : ∀ x, (mb x).next = (s.mem_blocks x).next := by
    intro x
    by_cases hx : x = b
    · subst hx
      simp [mb]
    · simp [mb, hx]
  let s2 : AllocState := { remove_from_block_list n s with mem_blocks := mb }
  obtain ⟨-, hfl, hvalid, hhead⟩ := remove_frame n s
  have hcall : codegen_allocator_free MEM_BLOCK_NR b s =
      freeLoop MEM_BLOCK_NR (b + 1) b s2 := by
    have hcode : (mb b).code_block = n := by simp [mb, hp.chain_code n b hb]
    have hs2 : (if s.valid_code_blocks (mb b).code_block = true then
        remove_from_block_list (mb b).code_block { s with mem_blocks := mb }
        else { s with mem_blocks := mb }) = s2 := by
      rw [hcode, if_pos hv, remove_pool]
    rw [← hs2]
    rfl
  have hlink : ∀ x, link s2 x = link s x := fun x => congrArg blockAt (hmb x)
  have hwn := walk_congr (fun x _ => hlink x) (hp.chain_walk n)
  have hwf := walk_congr (fun x _ => hlink x) hp.free_walk
  have hdn := hp.chain_nodup n
  have hbn := hp.chain_bounded n
  have hfn := hp.chain_free n
  rw [hb, hc] at hwn
  rw [hc] at hdn hbn hfn
  rw [← hfl] at hwf
  obtain ⟨mb', fl', u', h1, h2, h3, h4, -⟩ := freeLoop_spec MEM_BLOCK_NR b c s2 free
    (length_le_of_bounded hdn hbn) hwn hdn hwf hfn
  refine ⟨{ s2 with
      mem_blocks := mb', mem_block_free_list := fl', codegen_allocator_usage := u' },
    hcall.trans h1, ⟨rfl, rfl, rfl, rfl, rfl, rfl⟩, hvalid, hhead, h4, ?_⟩
  apply pool_freed hp n
  · rw [← hhead]
  · rw [hc]
    exact h2
  · intro x hx
    rw [hc] at hx
    have hxb : x ≠ b := by
      rintro rfl
      exact hx (by simp)
    have hx2 : mb' x = mb x := h3 x hx
    have hx3 : mb x = s.mem_blocks x := by simp [mb, hxb]
    exact hx2.trans hx3

section

variable {MEM_BLOCK_NR : Nat} {s t : AllocState} {b : Nat} {free c : List Nat}
  {chain : CodeBlock → List Nat} {n m : CodeBlock}

/-- A block of a chain after `b` went to the end of that of `n`, or of an empty one. -/
theorem mem_grown (hc : c = [] ∨ c = chain n) {x : Nat}
    (hx : x ∈ Function.update chain n (c ++ [b]) m) : x ∈ chain m ∨ m = n ∧ x = b := by
  by_cases hmn : m = n
  · subst hmn
    rw [Function.update_self, List.mem_append, List.mem_singleton] at hx
    refine hx.imp (fun hxc => ?_) fun hxb => ⟨rfl, hxb⟩
    rcases hc with rfl | rfl
    · cases hxc
    · exact hxc
  · rw [Function.update_of_ne hmn] at hx
    exact Or.inl hx

theorem grown_nodup (hp : PoolGood MEM_BLOCK_NR s (b :: free) chain) (hc : c = [] ∨ c = chain n) :
    (Function.update chain n (c ++ [b]) m).Nodup := by
  by_cases hmn : m = n
  · subst hmn
    rw [Function.update_self]
    refine List.nodup_append.mpr ⟨?_, List.nodup_singleton b, ?_⟩
    · rcases hc with rfl | rfl
      · exact List.nodup_nil
      · exact hp.chain_nodup m
    · rintro x hx y hy rfl
      rw [List.mem_singleton.mp hy] at hx
      rcases hc with rfl | rfl
      · cases hx
      · exact hp.chain_free m b hx List.mem_cons_self
  · rw [Function.update_of_ne hmn]
    exact hp.chain_nodup m

theorem grown_disjoint (hp : PoolGood MEM_BLOCK_NR s (b :: free) chain)
    (hc : c = [] ∨ c = chain n) {k : CodeBlock} (hmk : m ≠ k) {x : Nat}
    (hx : x ∈ Function.update chain n (c ++ [b]) m)
    (hx' : x ∈ Function.update chain n (c ++ [b]) k) : False := by
  have hfree : ∀ j, b ∉ chain j := fun j hb => hp.chain_free j b hb List.mem_cons_self
  rcases mem_grown hc hx with hin | ⟨rfl, rfl⟩
  · rcases mem_grown hc hx' with hin' | ⟨rfl, rfl⟩
    · exact hp.chain_disjoint m k hmk x hin hin'
    · exact hfree m hin
  · rcases mem_grown hc hx' with hx' | ⟨rfl, -⟩
    · exact hfree k hx'
    · exact hmk rfl

/-- The invariant of the pool after the first free block went to the end of the
chain of `n`. -/
theorem pool_taken (hp : PoolGood MEM_BLOCK_NR s (b :: free) chain)
    (n : CodeBlock) (c : List Nat) (hc : c = [] ∨ c = chain n)
    (hh : ∀ m, m ≠ n → t.head_mem_block m = s.head_mem_block m)
    (hfl : blockAt t.mem_block_free_list = link s b)
    (hm : ∀ x, x ≠ b → x ∉ c → t.mem_blocks x = s.mem_blocks x)
    (hw : Walk (link t) (t.head_mem_block n) (c ++ [b]))
    (hnew : ∀ h, t.head_mem_block n = some h → (t.mem_blocks h).code_block = n ∧
      blockAt (t.mem_blocks h).tail = if c ++ [b] = [h] then none else (c ++ [b]).getLast?) :
    PoolGood MEM_BLOCK_NR t free (Function.update chain n (c ++ [b])) := by
  obtain ⟨hbf, hdf⟩ := List.nodup_cons.mp hp.free_nodup
  have hcn : ∀ x ∈ c, x ∈ chain n := by
    rcases hc with rfl | rfl
    · exact nofun
    · exact fun x hx => hx
  have hkept : ∀ m, m ≠ n → _ := fun m hmn => hp.kept (t := t) (m := m) (hh m hmn) fun x hx =>
    hm x (by rintro rfl; exact hp.chain_free m x hx List.mem_cons_self)
      fun hxc => hp.chain_disjoint m n hmn x hx (hcn x hxc)
  refine
    { free_walk := ?_
      free_nodup := hdf
      free_bounded := fun x hx => hp.free_bounded x (List.mem_cons_of_mem _ hx)
      chain_walk := fun m => ?_
      chain_nodup := fun m => grown_nodup hp hc
      chain_bounded := fun m x hx => ?_
      chain_tail := fun m h hmh => ?_
      chain_code := fun m h hmh => ?_
      chain_free := fun m x hx hxf => ?_
      chain_disjoint := fun m k hmk x hx hx' => grown_disjoint hp hc hmk hx hx' }
  · rw [hfl]
    refine walk_congr (fun x hx => ?_) hp.free_walk.2
    unfold link
    rw [hm x (by rintro rfl; exact hbf hx)
      fun hxc => hp.chain_free n x (hcn x hxc) (List.mem_cons_of_mem _ hx)]
  · by_cases hmn : m = n
    · rw [hmn, Function.update_self]
      exact hw
    · rw [Function.update_of_ne hmn]
      exact (hkept m hmn).1
  · rcases mem_grown hc hx with hx | ⟨-, rfl⟩
    · exact hp.chain_bounded m x hx
    · exact hp.free_bounded x List.mem_cons_self
  · by_cases hmn : m = n
    · subst hmn
      rw [Function.update_self]
      exact (hnew h hmh).2
    · rw [Function.update_of_ne hmn]
      exact ((hkept m hmn).2 h hmh).1
  · by_cases hmn : m = n
    · subst hmn
      exact (hnew h hmh).1
    · exact ((hkept m hmn).2 h hmh).2
  · rcases mem_grown hc hx with hx | ⟨-, rfl⟩
    · exact hp.chain_free m x hx (List.mem_cons_of_mem _ hxf)
    · exact hbf hxf

end

/-! ## One call -/

/-- The invariant of the allocator. The owners are the code blocks that have a
first block. -/
def Good (MEM_BLOCK_NR : Nat) (s : AllocState) : Prop :=
  ∃ l free chain, OwnersGood s l ∧ PoolGood MEM_BLOCK_NR s free chain ∧
    ∀ n, n ∈ l ↔ s.head_mem_block n ≠ none

theorem Good.wellFormed {MEM_BLOCK_NR : Nat} {s : AllocState} (h : Good MEM_BLOCK_NR s) :
    ListWellFormed s := by
  obtain ⟨l, -, -, ho, -⟩ := h
  exact ho.wellFormed

theorem add_same {s s' : AllocState} (n : CodeBlock) (e : SameList s s') :
    SameList (add_to_block_list n s) (add_to_block_list n s') := by
  obtain ⟨e1, e2, e3, e4, e5, e6⟩ := e
  have e4' := congrArg (fun f => Function.update f n n) e4
  unfold add_to_block_list
  rw [e5, e6]
  rcases hh : s.mem_code_block_head with _ | x
  · exact ⟨e1, e2, e3, e4', rfl, rfl⟩
  · rw [hh] at e5
    rcases ht : s.mem_code_block_tail with _ | t
    · rw [ht] at e6
      exact ⟨e1, e2, e3, e4, by rw [e5, hh], by rw [e6, ht]⟩
    · exact ⟨e1, congrArg (fun f => Function.update f n (some t)) e2,
        congrArg (fun f => Function.update f t (some n)) e3, e4', rfl, rfl⟩

/-- A block for a new chain: what changes besides the list. -/
theorem takeBlock_none (n : CodeBlock) (s : AllocState) {b : Nat}
    (hb : s.mem_block_free_list = b + 1) :
    let t := (takeBlock none n s).1
    (takeBlock none n s).2 = b ∧
      t.mem_blocks = Function.update s.mem_blocks b { next := 0, tail := 0, code_block := n } ∧
      t.mem_block_free_list = (s.mem_blocks b).next ∧ t.valid = s.valid ∧
      t.head_mem_block = s.head_mem_block ∧
      SameList (if s.valid_code_blocks n = true then s
        else add_to_block_list n { s with
          valid_code_blocks := Function.update s.valid_code_blocks n true }) t := by
  intro t
  unfold t takeBlock modifyBlock
  simp only [hb, Nat.add_sub_cancel, Function.update_self, Function.update_idem]
  by_cases hv : s.valid_code_blocks n = true
  · rw [if_neg (by rw [hv]; simp), if_pos hv]
    exact ⟨trivial, rfl, rfl, rfl, rfl, rfl, rfl, rfl, rfl, rfl, rfl⟩
  · rw [if_pos (by simpa using hv), if_neg hv]
    let s' : AllocState := { s with
      mem_blocks := Function.update s.mem_blocks b { next := 0, tail := 0, code_block := n }
      mem_block_free_list := (s.mem_blocks b).next
      valid_code_blocks := Function.update s.valid_code_blocks n true }
    obtain ⟨f1, f2, f3, f4⟩ := add_frame n s'
    refine ⟨trivial, f1, f2, f3, f4, ?_⟩
    have hsame : SameList (add_to_block_list n { s with
        mem_block_free_list := b + 1
        valid_code_blocks := Function.update s.valid_code_blocks n true })
        (add_to_block_list n s') := add_same n ⟨rfl, rfl, rfl, rfl, rfl, rfl⟩
    exact ⟨hsame.1, hsame.2, hsame.3, hsame.4, hsame.5, hsame.6⟩

/-- One more block for a chain: the last block of the chain and the first block,
which keeps the tail, point at the new one. -/
theorem takeBlock_some (n : CodeBlock) (s : AllocState) {b h : Nat}
    (hb : s.mem_block_free_list = b + 1) (hne : h ≠ b) :
    let t := (takeBlock (some h) n s).1
    let tail := (s.mem_blocks h).tail
    t.mem_block_free_list = (s.mem_blocks b).next ∧ t.valid = s.valid ∧
      t.head_mem_block = s.head_mem_block ∧ SameList s t ∧
      (t.mem_blocks b).next = 0 ∧
      (t.mem_blocks h).tail = b + 1 ∧
      (t.mem_blocks h).code_block = (s.mem_blocks h).code_block ∧
      (tail = 0 → (t.mem_blocks h).next = b + 1 ∧
        ∀ x, x ≠ b → x ≠ h → t.mem_blocks x = s.mem_blocks x) ∧
      (∀ k, tail = k + 1 → k ≠ b → k ≠ h → (t.mem_blocks k).next = b + 1 ∧
        (t.mem_blocks h).next = (s.mem_blocks h).next ∧
        ∀ x, x ≠ b → x ≠ h → x ≠ k → t.mem_blocks x = s.mem_blocks x) := by
  intro t tail
  unfold t tail takeBlock modifyBlock
  simp only [hb, Nat.add_sub_cancel, Function.update_of_ne hne]
  rcases ht : (s.mem_blocks h).tail with _ | k
  · simp only [ne_eq, not_true, if_false]
    refine ⟨trivial, trivial, trivial, ⟨rfl, rfl, rfl, rfl, rfl, rfl⟩, by simp, by simp,
      by simp, ?_, ?_⟩
    · intro _
      refine ⟨by simp, ?_⟩
      intro x hxb hxh
      simp [hxb, hxh]
    · intro j hj
      exact absurd hj.symm (Nat.succ_ne_zero j)
  · simp only [ne_eq, Nat.succ_ne_zero, not_false_eq_true, if_true, Nat.add_sub_cancel]
    refine ⟨trivial, trivial, trivial, ⟨rfl, rfl, rfl, rfl, rfl, rfl⟩, by simp, by simp,
      ?_, ?_, ?_⟩
    · by_cases hk : h = k
      · subst hk
        simp [hne]
      · simp [hne, hk]
    · intro h0
      exact h0.elim
    · intro j hj hjb hjh
      obtain rfl : k = j := Nat.succ.inj hj
      refine ⟨by simp [hjb, hjh], by simp [hne, Ne.symm hjh], ?_⟩
      intro x hxb hxh hxk
      simp [hxb, hxh, hxk]

/-- The chain of a first block `h` after it got one more block. -/
theorem takeBlock_chain (n : CodeBlock) {s : AllocState} {b h : Nat} {c : List Nat}
    (hb : s.mem_block_free_list = b + 1) (hbc : b ∉ h :: c) (hdc : (h :: c).Nodup)
    (hwc : Walk (link s) (some h) (h :: c))
    (htail : blockAt (s.mem_blocks h).tail = if h :: c = [h] then none else (h :: c).getLast?) :
    (∀ x, x ≠ b → x ∉ h :: c → (takeBlock (some h) n s).1.mem_blocks x = s.mem_blocks x) ∧
      Walk (link (takeBlock (some h) n s).1) (some h) (h :: c ++ [b]) := by
  have hhb : h ≠ b := by
    rintro rfl
    exact hbc (by simp)
  obtain ⟨-, -, -, -, h5, -, -, h8, h9⟩ := takeBlock_some n s hb hhb
  have hlb : link (takeBlock (some h) n s).1 b = none := by rw [link, h5]; rfl
  rcases List.eq_nil_or_concat c with rfl | ⟨d, k, rfl⟩
  · -- The chain is its first block, which has no tail yet.
    rw [if_pos rfl] at htail
    have ht0 : (s.mem_blocks h).tail = 0 := by
      by_contra h0
      rw [blockAt_sub h0] at htail
      exact absurd htail (by simp)
    obtain ⟨hnext, hrest⟩ := h8 ht0
    refine ⟨fun x hxb hxc => hrest x hxb (by simpa using hxc), rfl, ?_, hlb⟩
    rw [link, hnext]
    rfl
  · rw [List.concat_eq_append] at *
    rw [if_neg (by simp), ← List.cons_append, List.getLast?_concat] at htail
    have htk : (s.mem_blocks h).tail = k + 1 := by
      cases ht : (s.mem_blocks h).tail with
      | zero => rw [ht] at htail; exact absurd htail (by simp [blockAt])
      | succ j => rw [ht] at htail; rw [Option.some.inj htail]
    have hkb : k ≠ b := by
      rintro rfl
      exact hbc (by simp)
    have hkh : k ≠ h := by
      rintro rfl
      simp at hdc
    obtain ⟨hk1, hk2, hk3⟩ := h9 k htk hkb hkh
    refine ⟨fun x hxb hxc => hk3 x hxb ?_ ?_, ?_⟩
    · rintro rfl
      exact hxc (by simp)
    · rintro rfl
      exact hxc (by simp)
    · apply walk_push_back (l := h :: d) hwc _ (by rw [link, hk1]; rfl) hlb
      intro x hx
      rcases List.mem_cons.mp hx with rfl | hxd
      · rw [link, link, hk2]
      · have hxb : x ≠ b := by
          rintro rfl
          exact hbc (by simp [hxd])
        have hxh : x ≠ h := by
          rintro rfl
          exact (List.nodup_cons.mp hdc).1 (by simp [hxd])
        have hxk : x ≠ k := by
          rintro rfl
          rw [← List.cons_append, List.nodup_append] at hdc
          exact hdc.2.2 x (by simp [hxd]) x (by simp) rfl
        rw [link, link, hk3 x hxb hxh hxk]

theorem take_none_good {MEM_BLOCK_NR : Nat} {s : AllocState} (hg : Good MEM_BLOCK_NR s)
    (n : CodeBlock) (hf : s.mem_block_free_list ≠ 0) :
    Good MEM_BLOCK_NR { (takeBlock none n s).1 with
      head_mem_block := Function.update (takeBlock none n s).1.head_mem_block n
        (some (takeBlock none n s).2) } := by
  obtain ⟨l, free, chain, ho, hp, hown⟩ := hg
  obtain ⟨b, hb⟩ : ∃ b, s.mem_block_free_list = b + 1 := ⟨_, (Nat.succ_pred_eq_of_ne_zero hf).symm⟩
  obtain ⟨h1, h2, h3, -, h5, h6⟩ := takeBlock_none n s hb
  obtain ⟨free, rfl⟩ : ∃ f, free = b :: f := by
    have hw := hp.free_walk
    rw [hb] at hw
    cases free with
    | nil => exact absurd hw (by simp [Walk, blockAt])
    | cons x f => exact ⟨f, by rw [Option.some.inj hw.1]⟩
  have hpool : PoolGood MEM_BLOCK_NR { (takeBlock none n s).1 with
      head_mem_block := Function.update (takeBlock none n s).1.head_mem_block n
        (some (takeBlock none n s).2) } free (Function.update chain n ([] ++ [b])) := by
    apply pool_taken hp n [] (Or.inl rfl)
    · intro m hmn
      simp only [Function.update_of_ne hmn, h5]
    · exact congrArg blockAt h3
    · intro x hxb _
      simp only [h2, Function.update_of_ne hxb]
    · simp only [Function.update_self, h1]
      refine ⟨rfl, ?_⟩
      simp [link, h2, blockAt, Walk]
    · intro x hx
      simp only [Function.update_self, h1] at hx
      obtain rfl := Option.some.inj hx
      simp [h2, blockAt]
  by_cases hv : s.valid_code_blocks n = true
  · rw [if_pos hv] at h6
    refine ⟨l, free, _, (ho.same h6).same ⟨rfl, rfl, rfl, rfl, rfl, rfl⟩, hpool, ?_⟩
    intro m
    by_cases hmn : m = n
    · subst hmn
      simp [(ho.owners m).mpr hv]
    · rw [hown]
      simp [hmn, h5]
  · rw [if_neg hv] at h6
    have hn : n ∉ l := fun hl => hv ((ho.owners n).mp hl)
    refine ⟨l ++ [n], free, _, ((add_good ho hn).same h6).same ⟨rfl, rfl, rfl, rfl, rfl, rfl⟩,
      hpool, ?_⟩
    intro m
    by_cases hmn : m = n
    · subst hmn
      simp
    · simp [hmn, h5, hown m]

theorem take_some_good {MEM_BLOCK_NR : Nat} {s : AllocState} (hg : Good MEM_BLOCK_NR s)
    (n : CodeBlock) {h : Nat} (hh : s.head_mem_block n = some h)
    (hf : s.mem_block_free_list ≠ 0) : Good MEM_BLOCK_NR (takeBlock (some h) n s).1 := by
  obtain ⟨l, free, chain, ho, hp, hown⟩ := hg
  obtain ⟨b, hb⟩ : ∃ b, s.mem_block_free_list = b + 1 := ⟨_, (Nat.succ_pred_eq_of_ne_zero hf).symm⟩
  obtain ⟨free, rfl⟩ : ∃ f, free = b :: f := by
    have hw := hp.free_walk
    rw [hb] at hw
    cases free with
    | nil => exact absurd hw (by simp [Walk, blockAt])
    | cons x f => exact ⟨f, by rw [Option.some.inj hw.1]⟩
  obtain ⟨c, hc⟩ := head_mem_chain hp hh
  have hbc : b ∉ chain n := fun hbn => hp.chain_free n b hbn (by simp)
  have hhb : h ≠ b := by
    rintro rfl
    exact hbc (by simp [hc])
  obtain ⟨h1, -, h3, h4, -, h6, h7, -, -⟩ := takeBlock_some n s hb hhb
  have htail := hp.chain_tail n h hh
  have hdc := hp.chain_nodup n
  have hwc := hp.chain_walk n
  have hcode := hp.chain_code n h hh
  rw [hh] at hwc
  have hlast : (chain n ++ [b]).getLast? = some b := List.getLast?_concat
  have hnew : ∀ x, (takeBlock (some h) n s).1.head_mem_block n = some x →
      ((takeBlock (some h) n s).1.mem_blocks x).code_block = n ∧
      blockAt ((takeBlock (some h) n s).1.mem_blocks x).tail =
        if chain n ++ [b] = [x] then none else (chain n ++ [b]).getLast? := by
    intro x hx
    rw [h3, hh] at hx
    obtain rfl := Option.some.inj hx
    rw [h7, h6, hlast, if_neg (by rw [hc]; simp)]
    exact ⟨hcode, rfl⟩
  have hpool : (∀ x, x ≠ b → x ∉ chain n →
      (takeBlock (some h) n s).1.mem_blocks x = s.mem_blocks x) ∧
      Walk (link (takeBlock (some h) n s).1) (some h) (chain n ++ [b]) := by
    rw [hc] at htail hwc hdc hbc ⊢
    exact takeBlock_chain n hb hbc hdc hwc htail
  refine ⟨l, free, Function.update chain n (chain n ++ [b]), ho.same h4, ?_, ?_⟩
  · apply pool_taken hp n (chain n) (Or.inr rfl) _ _ hpool.1 _ hnew
    · intro m _
      rw [h3]
    · exact congrArg blockAt h1
    · rw [h3, hh]
      exact hpool.2
  · intro m
    rw [h3]
    exact hown m

/-- The end of a free: a good state, or a list that is broken for good. -/
theorem free_good {MEM_BLOCK_NR : Nat} {s : AllocState} (hg : Good MEM_BLOCK_NR s)
    {n : CodeBlock} {b : Nat} (hb : s.head_mem_block n = some b) :
    ∃ s', codegen_allocator_free MEM_BLOCK_NR b s = some s' ∧ s'.mem_block_free_list ≠ 0 ∧
      s'.cb_next n = none ∧
      (¬HeadOfMany s n → Good MEM_BLOCK_NR
        { s' with head_mem_block := Function.update s'.head_mem_block n none }) ∧
      (HeadOfMany s n → Broken s') ∧ s'.valid = s.valid ∧
      s'.head_mem_block = s.head_mem_block ∧
      s'.valid_code_blocks = Function.update s.valid_code_blocks n false := by
  obtain ⟨l, free, chain, ho, hp, hown⟩ := hg
  have hn : n ∈ l := (hown n).mpr (by rw [hb]; simp)
  obtain ⟨s', h1, h2, h3, h4, h5, h6⟩ := free_spec hp hb ((ho.owners n).mp hn)
  have hnum := ho.numbers n hn
  refine ⟨s', h1, h5, ?_, ?_, ?_, h3, h4, ?_⟩
  · rw [h2.cb_next]
    simp [remove_from_block_list]
  · intro hk
    obtain ⟨l₁, l₂, rfl⟩ := List.append_of_mem hn
    have hgood := remove_good ho hk
    refine ⟨l₁ ++ l₂, _, _, (hgood.same h2).same ⟨rfl, rfl, rfl, rfl, rfl, rfl⟩, h6, ?_⟩
    have hd := ho.list.nodup
    rw [List.nodup_middle, List.nodup_cons] at hd
    intro m
    by_cases hmn : m = n
    · subst hmn
      simp only [Function.update_self, ne_eq, not_true, iff_false]
      exact hd.1
    · simp only [Function.update_of_ne hmn, h4, ← hown m, List.mem_append, List.mem_cons, hmn,
        false_or]
  · intro hk
    obtain ⟨x, y, hx, hy, hv⟩ := remove_head_breaks ho hk
    exact ⟨x, y, h2.head.trans hx, by rw [h2.cb_prev]; exact hy,
      by rw [h2.valid_code_blocks]; exact hv⟩
  · rw [h2.valid_code_blocks]
    unfold remove_from_block_list
    simp only []
    rw [hnum]
    split
    · split <;> rfl
    · split
      · split <;> rfl
      · split <;> rfl

/-- A code block that an eviction can take. -/
def evictable (code_block : CodeBlock) (s : AllocState) (m : CodeBlock) : Bool :=
  m != code_block && s.valid m

/-- The loop takes the first owner that it can, and no other: the removed owner
has no link on. -/
theorem evictLoop_eq {MEM_BLOCK_NR : Nat} {s : AllocState} {l free : List _}
    {chain : CodeBlock → List Nat} (ho : OwnersGood s l) (hp : PoolGood MEM_BLOCK_NR s free chain)
    (hown : ∀ n, n ∈ l ↔ s.head_mem_block n ≠ none) (code_block : CodeBlock) (fuel : Nat)
    (l₁ l₂ : List CodeBlock) (hl : l = l₁ ++ l₂) (hfuel : l₂.length ≤ fuel) :
    evictLoop MEM_BLOCK_NR code_block fuel l₂.head? s =
      match l₂.find? (evictable code_block s) with
      | some m => codegen_delete_block MEM_BLOCK_NR m s
      | none => some s := by
  induction l₂ generalizing fuel l₁ with
  | nil => cases fuel <;> rfl
  | cons m l₂ ih =>
    obtain ⟨fuel, rfl⟩ : ∃ k, fuel = k + 1 := ⟨fuel - 1, by simp at hfuel; omega⟩
    have hm : m ∈ l := by simp [hl]
    have hnum := ho.numbers m hm
    have hnext : s.cb_next m = l₂.head? := by
      have hs := ho.list.seg
      rw [hl] at hs
      have := (seg_mid hs).2
      rwa [Option.or_none] at this
    have hrest := ih fuel (l₁ ++ [m]) (by rw [hl, List.append_assoc]; rfl)
      (by simpa using hfuel)
    simp only [List.head?_cons, evictLoop, hnum]
    rw [List.find?_cons]
    by_cases hmn : m = code_block
    · subst hmn
      simp only [ne_eq, not_true, if_false, evictable, bne_self_eq_false, Bool.false_and]
      simpa [hnext] using hrest
    · rw [if_pos (Ne.symm hmn)]
      by_cases hv : s.valid m = true
      · -- This one goes, and the loop ends at its cleared link.
        have he : evictable code_block s m = true := by simp [evictable, hmn, hv]
        rw [he]
        obtain ⟨b, hb⟩ := Option.ne_none_iff_exists'.mp ((hown m).mp hm)
        have hg : Good MEM_BLOCK_NR { s with valid := Function.update s.valid m false } :=
          ⟨l, free, chain, ho.same ⟨rfl, rfl, rfl, rfl, rfl, rfl⟩,
            ⟨hp.1, hp.2, hp.3, hp.4, hp.5, hp.6, hp.7, hp.8, hp.9, hp.10⟩, hown⟩
        obtain ⟨s', h1, -, h3, -⟩ := free_good hg hb
        simp only [codegen_delete_block, hv, if_true, hb, h1, Option.bind_eq_bind, Option.bind_some,
          h3]
        cases fuel <;> rfl
      · have he : evictable code_block s m = false := by simp [evictable, hv]
        rw [he]
        simp only [codegen_delete_block, hv, Bool.false_eq_true, if_false, Option.bind_eq_bind,
          Option.bind_some, hnext]
        exact hrest

/-- A deletion of a code block that is valid and owns memory. -/
theorem delete_good {MEM_BLOCK_NR : Nat} {s : AllocState} (hg : Good MEM_BLOCK_NR s)
    {n : CodeBlock} (hv : s.valid n = true) (hn : s.valid_code_blocks n = true) :
    ∃ s', codegen_delete_block MEM_BLOCK_NR n s = some s' ∧ s'.mem_block_free_list ≠ 0 ∧
      (¬HeadOfMany s n → Good MEM_BLOCK_NR s') ∧ (HeadOfMany s n → Broken s') ∧
      s'.valid_code_blocks = Function.update s.valid_code_blocks n false ∧
      ∀ m, m ≠ n → s'.head_mem_block m = s.head_mem_block m := by
  obtain ⟨l, free, chain, ho, hp, hown⟩ := hg
  obtain ⟨b, hb⟩ := Option.ne_none_iff_exists'.mp ((hown n).mp ((ho.owners n).mpr hn))
  have hg1 : Good MEM_BLOCK_NR { s with valid := Function.update s.valid n false } :=
    ⟨l, free, chain, ho.same ⟨rfl, rfl, rfl, rfl, rfl, rfl⟩,
      ⟨hp.1, hp.2, hp.3, hp.4, hp.5, hp.6, hp.7, hp.8, hp.9, hp.10⟩, hown⟩
  obtain ⟨s', h1, h2, -, h4, h5, -, h7, h8⟩ := free_good hg1 hb
  refine ⟨{ s' with head_mem_block := Function.update s'.head_mem_block n none }, ?_, h2, h4, h5,
    h8, ?_⟩
  · simp only [codegen_delete_block, hv, if_true, hb, h1, Option.bind_eq_bind, Option.bind_some]
  · intro m hmn
    simp [hmn, h7]

/-- A code block that is not an owner, or not valid, keeps the list. -/
theorem delete_keeps {MEM_BLOCK_NR : Nat} {s : AllocState} (hg : Good MEM_BLOCK_NR s)
    {n : CodeBlock} (h : s.valid n = false ∨ s.valid_code_blocks n = false) :
    ∃ s', codegen_delete_block MEM_BLOCK_NR n s = some s' ∧ Good MEM_BLOCK_NR s' := by
  rcases hv : s.valid n with _ | _
  · exact ⟨s, by simp [codegen_delete_block, hv], hg⟩
  · have hn := h.resolve_left (by rw [hv]; simp)
    obtain ⟨l, free, chain, ho, hp, hown⟩ := hg
    have hb : s.head_mem_block n = none := by
      by_contra hb
      have := (ho.owners n).mp ((hown n).mpr hb)
      rw [hn] at this
      exact absurd this (by simp)
    refine ⟨{ s with valid := Function.update s.valid n false }, ?_, l, free, chain,
      ho.same ⟨rfl, rfl, rfl, rfl, rfl, rfl⟩,
      ⟨hp.1, hp.2, hp.3, hp.4, hp.5, hp.6, hp.7, hp.8, hp.9, hp.10⟩, hown⟩
    simp [codegen_delete_block, hv, hb]

theorem take_some_same (h : Nat) (n : CodeBlock) (s : AllocState) :
    SameList s (takeBlock (some h) n s).1 := by
  unfold takeBlock modifyBlock
  simp only []
  split <;> exact ⟨rfl, rfl, rfl, rfl, rfl, rfl⟩

/-- A new block leaves a broken list broken. -/
theorem take_broken {s : AllocState} (h : Broken s) (n : CodeBlock) (parent : Option Nat)
    (hf : s.mem_block_free_list ≠ 0) : Broken (takeBlock parent n s).1 := by
  obtain ⟨b, p, hb, hp, hvb⟩ := h
  cases parent with
  | some h =>
    have hsame := take_some_same h n s
    exact ⟨b, p, hsame.head.trans hb, by rw [hsame.cb_prev]; exact hp,
      by rw [hsame.valid_code_blocks]; exact hvb⟩
  | none =>
    obtain ⟨k, hk⟩ : ∃ k, s.mem_block_free_list = k + 1 :=
      ⟨_, (Nat.succ_pred_eq_of_ne_zero hf).symm⟩
    obtain ⟨-, -, -, -, -, hsame⟩ := takeBlock_none n s hk
    by_cases hv : s.valid_code_blocks n = true
    · rw [if_pos hv] at hsame
      exact ⟨b, p, hsame.head.trans hb, by rw [hsame.cb_prev]; exact hp,
        by rw [hsame.valid_code_blocks]; exact hvb⟩
    · rw [if_neg hv] at hsame
      have hbn : b ≠ n := by
        rintro rfl
        exact hv hvb
      refine ⟨b, p, ?_, ?_, ?_⟩
      · rw [hsame.head]
        unfold add_to_block_list
        simp only [hb]
        split <;> simp_all
      · rw [hsame.cb_prev]
        unfold add_to_block_list
        simp only [hb]
        split <;> simp [hbn, hp]
      · rw [hsame.valid_code_blocks]
        unfold add_to_block_list
        simp only [hb]
        split <;> simp [hbn, hvb]

/-! ## When the pool is empty -/

/-- No other code block owns memory, or one of the others is valid and the first
owner is not one that goes. -/
def AllocOk (n : CodeBlock) (s : AllocState) : Prop :=
  s.mem_block_free_list = 0 →
    (∀ m, m ≠ n → s.valid_code_blocks m = false) ∨
      ((∃ m, m ≠ n ∧ s.valid_code_blocks m = true ∧ s.valid m = true) ∧
        ∀ h, s.mem_code_block_head = some h → h = n ∨ s.valid h = false)

section

variable {MEM_BLOCK_NR : Nat} {s : AllocState} {n m : CodeBlock} {parent : Option Nat}
  {l : List CodeBlock} {free : List Nat} {chain : CodeBlock → List Nat}

/-- The first owner is the last one where there is one at most. -/
theorem OwnersGood.one_iff (ho : OwnersGood s l) :
    s.mem_code_block_head = s.mem_code_block_tail ↔ l.length ≤ 1 := by
  rw [ho.list.head_eq, ho.list.tail_eq]
  match l, ho.list.nodup with
  | [], _ => exact iff_of_true rfl (Nat.zero_le _)
  | [a], _ => exact iff_of_true rfl (Nat.le_refl _)
  | a :: b :: l, hd =>
    refine iff_of_false ?_ (by rw [List.length_cons, List.length_cons]; omega)
    rw [List.head?_cons, List.getLast?_cons_cons]
    exact fun hone => (List.nodup_cons.mp hd).1 (List.mem_of_mem_getLast? hone.symm)

theorem OwnersGood.headOfMany_iff (ho : OwnersGood s l) :
    HeadOfMany s m ↔ l.head? = some m ∧ 1 < l.length := by
  unfold HeadOfMany
  rw [ho.list.head_eq]
  refine and_congr_right fun hhead => ?_
  cases l with
  | nil => cases hhead
  | cons h l' =>
    obtain rfl := Option.some.inj hhead
    rw [(seg_first ho.list.seg).2, Option.or_none, List.length_cons]
    cases l' with
    | nil => exact iff_of_false (fun hne => hne rfl) (Nat.lt_irrefl 1)
    | cons a l' => exact iff_of_true nofun (by rw [List.length_cons]; omega)

/-- The condition on an empty pool, said of the list of the owners. -/
theorem OwnersGood.allocOk_iff (ho : OwnersGood s l) (hf : s.mem_block_free_list = 0) :
    AllocOk n s ↔ (∀ m ∈ l, m = n) ∨
      ((∃ m ∈ l, evictable n s m = true) ∧ ∀ h, l.head? = some h → evictable n s h = false) := by
  unfold AllocOk
  rw [forall_prop_of_true hf, ho.list.head_eq]
  simp only [evictable, ho.owners, Bool.and_eq_true, Bool.and_eq_false_iff, bne_iff_ne,
    bne_eq_false_iff_eq]
  refine or_congr (forall_congr' fun m => ?_) (and_congr_left fun _ => exists_congr fun m => ?_)
  · rw [← Bool.not_eq_true, not_imp_not]
  · tauto

theorem length_le_one_of_all (ho : OwnersGood s l) (h : ∀ m ∈ l, m = n) : l.length ≤ 1 := by
  match l, ho.list.nodup with
  | [], _ => exact Nat.zero_le _
  | [a], _ => exact Nat.le_refl _
  | a :: b :: l, hd =>
    have hab : a = b := (h a (by simp)).trans (h b (by simp)).symm
    exact absurd (hab ▸ List.mem_cons_self) (List.nodup_cons.mp hd).1

/-- The loop for an empty pool looks at all the owners. -/
theorem evictLoop_all (ho : OwnersGood s l) (hp : PoolGood MEM_BLOCK_NR s free chain)
    (hown : ∀ n, n ∈ l ↔ s.head_mem_block n ≠ none) :
    evictLoop MEM_BLOCK_NR n BLOCK_SIZE s.mem_code_block_head s =
      match l.find? (evictable n s) with
      | some m => codegen_delete_block MEM_BLOCK_NR m s
      | none => some s := by
  have hlen : l.length ≤ BLOCK_SIZE := by
    have hcard := List.Nodup.length_le_card ho.list.nodup
    rwa [Fintype.card_fin] at hcard
  rw [ho.list.head_eq]
  exact evictLoop_eq ho hp hown n BLOCK_SIZE [] l rfl hlen

theorem allocate_refused (ho : OwnersGood s l) (hp : PoolGood MEM_BLOCK_NR s free chain)
    (hown : ∀ n, n ∈ l ↔ s.head_mem_block n ≠ none) (hf : s.mem_block_free_list = 0)
    (h : l.length ≤ 1 ∨ l.find? (evictable n s) = none) :
    codegen_allocator_allocate MEM_BLOCK_NR parent n s = .fatal := by
  unfold codegen_allocator_allocate
  rw [if_pos hf, evictLoop_all ho hp hown]
  by_cases hone : l.length ≤ 1
  · rw [if_pos (ho.one_iff.mpr hone)]
  · rw [if_neg (mt ho.one_iff.mp hone), h.resolve_left hone]
    exact if_neg fun hne => hne hf

/-- The first owner that can go gives way, and leaves a good list unless others stood behind it
as the first of all. -/
theorem allocate_evicts (ho : OwnersGood s l) (hp : PoolGood MEM_BLOCK_NR s free chain)
    (hown : ∀ n, n ∈ l ↔ s.head_mem_block n ≠ none) (hf : s.mem_block_free_list = 0)
    (hlen : 1 < l.length) (hfind : l.find? (evictable n s) = some m) :
    ∃ s', codegen_allocator_allocate MEM_BLOCK_NR parent n s =
        .done (takeBlock parent n s').1 (takeBlock parent n s').2 ∧
      s'.mem_block_free_list ≠ 0 ∧ s'.head_mem_block n = s.head_mem_block n ∧
      (l.head? ≠ some m → Good MEM_BLOCK_NR s') ∧ (l.head? = some m → Broken s') := by
  obtain ⟨hmn, hmv⟩ : m ≠ n ∧ s.valid m = true := by
    simpa [evictable] using List.find?_some hfind
  have hmo := (ho.owners m).mp (List.mem_of_find?_eq_some hfind)
  obtain ⟨s', hdel, hfree, hgood, hbroken, -, hhead⟩ :=
    delete_good ⟨l, free, chain, ho, hp, hown⟩ hmv hmo
  refine ⟨s', ?_, hfree, hhead n hmn.symm, fun hno => hgood fun hmany => ?_, fun hfirst => ?_⟩
  · unfold codegen_allocator_allocate
    rw [if_pos hf, if_neg (mt ho.one_iff.mp (Nat.not_le.mpr hlen)), evictLoop_all ho hp hown, hfind]
    dsimp only
    rw [hdel]
    exact if_pos hfree
  · exact hno (ho.headOfMany_iff.mp hmany).1
  · exact hbroken (ho.headOfMany_iff.mpr ⟨hfirst, hlen⟩)

/-- An owner that can go is there, and is the first one when the first one can go. -/
theorem find?_evictable (hfind : l.find? (evictable n s) = some m) :
    evictable n s m = true ∧ m ∈ l ∧
      ((∀ h, l.head? = some h → evictable n s h = false) ↔ l.head? ≠ some m) := by
  have hm := List.find?_some hfind
  refine ⟨hm, List.mem_of_find?_eq_some hfind, fun hno hfirst => ?_, fun hno h hh => ?_⟩
  · exact Bool.false_ne_true ((hno m hfirst).symm.trans hm)
  · cases l with
    | nil => cases hh
    | cons a l' =>
      obtain rfl := Option.some.inj hh
      refine Bool.eq_false_of_not_eq_true fun hcan => hno ?_
      rw [List.find?_cons, hcan] at hfind
      exact hfind

end

/-- The four ends of an allocation. -/
theorem allocate_cases {MEM_BLOCK_NR : Nat} {s : AllocState} (hg : Good MEM_BLOCK_NR s)
    (n : CodeBlock) (parent : Option Nat) :
    let out := codegen_allocator_allocate MEM_BLOCK_NR parent n s
    (AllocOk n s ∧ ∃ s', out = .done (takeBlock parent n s').1 (takeBlock parent n s').2 ∧
      Good MEM_BLOCK_NR s' ∧ s'.mem_block_free_list ≠ 0 ∧
      s'.head_mem_block n = s.head_mem_block n) ∨
    (AllocOk n s ∧ out = .fatal ∧ ∀ m, m ≠ n → s.valid_code_blocks m = false) ∨
    (¬AllocOk n s ∧ ∃ s', out = .done (takeBlock parent n s').1 (takeBlock parent n s').2 ∧
      Broken s' ∧ s'.mem_block_free_list ≠ 0) ∨
    (¬AllocOk n s ∧ out = .fatal ∧ ∃ m, m ≠ n ∧ s.valid_code_blocks m = true) := by
  intro out
  obtain ⟨l, free, chain, ho, hp, hown⟩ := id hg
  by_cases hf : s.mem_block_free_list = 0
  swap
  · -- The pool has a block.
    exact Or.inl ⟨fun h0 => absurd h0 hf, s, if_neg hf, hg, hf, rfl⟩
  rw [ho.allocOk_iff hf]
  by_cases hall : ∀ m ∈ l, m = n
  · -- The requester is alone, or there is no owner at all.
    refine Or.inr (Or.inl ⟨Or.inl hall, ?_, fun m hmn => ?_⟩)
    · exact allocate_refused ho hp hown hf (Or.inl (length_le_one_of_all ho hall))
    · exact Bool.eq_false_of_not_eq_true fun hm => hmn (hall m ((ho.owners m).mpr hm))
  obtain ⟨m₀, hm₀, hm₀n⟩ : ∃ m ∈ l, m ≠ n := by
    by_contra hno
    exact hall fun m hm => by_contra fun hmn => hno ⟨m, hm, hmn⟩
  have hother : ∃ m, m ≠ n ∧ s.valid_code_blocks m = true := ⟨m₀, hm₀n, (ho.owners m₀).mp hm₀⟩
  rcases Nat.lt_or_ge 1 l.length with hlen | hlen
  · cases hfind : l.find? (evictable n s) with
    | none =>
      -- No other owner is valid.
      have hnone := List.find?_eq_none.mp hfind
      refine Or.inr (Or.inr (Or.inr ⟨?_, allocate_refused ho hp hown hf (Or.inr hfind), hother⟩))
      rintro (hok | ⟨⟨m, hm, hcan⟩, -⟩)
      · exact hall hok
      · exact hnone m hm hcan
    | some m =>
      obtain ⟨hcan, hm, hfirst⟩ := find?_evictable hfind
      obtain ⟨s', hout, hfree, hhead, hgood, hbroken⟩ :=
        @allocate_evicts _ _ _ _ parent _ _ _ ho hp hown hf hlen hfind
      by_cases hmany : l.head? = some m
      · refine Or.inr (Or.inr (Or.inl ⟨?_, s', hout, hbroken hmany, hfree⟩))
        rintro (hok | ⟨-, hok⟩)
        · exact hall hok
        · exact hfirst.mp hok hmany
      · exact Or.inl ⟨Or.inr ⟨⟨m, hm, hcan⟩, hfirst.mpr hmany⟩, s', hout, hgood hmany, hfree, hhead⟩
  · -- Another code block is the only owner.
    refine Or.inr (Or.inr (Or.inr ⟨?_, allocate_refused ho hp hown hf (Or.inl hlen), hother⟩))
    obtain ⟨h, rfl⟩ : ∃ h, l = [h] :=
      List.length_eq_one_iff.mp (Nat.le_antisymm hlen (List.length_pos_of_mem hm₀))
    rintro (hok | ⟨⟨m, hm, hcan⟩, hok⟩)
    · exact hall hok
    · rw [List.mem_singleton.mp hm] at hcan
      exact Bool.false_ne_true ((hok h rfl).symm.trans hcan)

/-! ## The law -/

/-- What the state must not be before an operation: no first owner with others
behind it is removed, and an allocation from the empty pool finds a block. -/
def StepOk (s : AllocState) : AllocOp → Prop
  | .allocate n => AllocOk n s
  | .grow n => s.head_mem_block n ≠ none → AllocOk n s
  | .free n => ¬HeadOfMany s n
  | .delete n => s.valid n = true → ¬HeadOfMany s n
  | .validate _ => True

/-- What an operation should end in: a well-formed list, or the fatal error of a
requester with no other owner. -/
def Fine (s : AllocState) (op : AllocOp) : Result → Prop
  | .ok s' => ListWellFormed s'
  | .fatal =>
    match op with
    | .allocate n | .grow n => ∀ m, m ≠ n → s.valid_code_blocks m = false
    | _ => False
  | .stuck => False

theorem allocate_step {MEM_BLOCK_NR : Nat} {s : AllocState} (hg : Good MEM_BLOCK_NR s)
    (n : CodeBlock) :
    (Fine s (.allocate n) (step MEM_BLOCK_NR (.allocate n) s) ↔ AllocOk n s) ∧
      ∀ s', AllocOk n s → step MEM_BLOCK_NR (.allocate n) s = .ok s' → Good MEM_BLOCK_NR s' := by
  rcases allocate_cases hg n none with ⟨hok, s', ho, hg', hf, -⟩ | ⟨hok, ho, hno⟩ |
    ⟨hok, s', ho, hb, hf⟩ | ⟨hok, ho, m, hmn, hm⟩
  · simp only [step, ho]
    have hgood := take_none_good hg' n hf
    refine ⟨⟨fun _ => hok, fun _ => hgood.wellFormed⟩, ?_⟩
    rintro t - ht
    cases ht
    exact hgood
  · simp only [step, ho]
    refine ⟨⟨fun _ => hok, fun _ => hno⟩, ?_⟩
    rintro t - ht
    cases ht
  · simp only [step, ho]
    refine ⟨⟨fun hfine => absurd hfine ?_, fun h => absurd h hok⟩, fun _ h => absurd h hok⟩
    intro hfine
    exact (take_broken hb n none hf).not_wellFormed (hfine.same ⟨rfl, rfl, rfl, rfl, rfl, rfl⟩)
  · simp only [step, ho]
    refine ⟨⟨fun hfine => absurd hfine ?_, fun h => absurd h hok⟩, fun _ h => absurd h hok⟩
    intro hfine
    have := hfine m hmn
    rw [hm] at this
    exact absurd this (by simp)

theorem grow_step {MEM_BLOCK_NR : Nat} {s : AllocState} (hg : Good MEM_BLOCK_NR s)
    (n : CodeBlock) {h : Nat} (hh : s.head_mem_block n = some h) :
    (Fine s (.grow n) (step MEM_BLOCK_NR (.grow n) s) ↔ AllocOk n s) ∧
      ∀ s', AllocOk n s → step MEM_BLOCK_NR (.grow n) s = .ok s' → Good MEM_BLOCK_NR s' := by
  rcases allocate_cases hg n (some h) with ⟨hok, s', ho, hg', hf, hh'⟩ | ⟨hok, ho, hno⟩ |
    ⟨hok, s', ho, hb, hf⟩ | ⟨hok, ho, m, hmn, hm⟩
  · simp only [step, hh, ho]
    have hgood := take_some_good hg' n (hh'.trans hh) hf
    refine ⟨⟨fun _ => hok, fun _ => hgood.wellFormed⟩, ?_⟩
    rintro t - ht
    cases ht
    exact hgood
  · simp only [step, hh, ho]
    refine ⟨⟨fun _ => hok, fun _ => hno⟩, ?_⟩
    rintro t - ht
    cases ht
  · simp only [step, hh, ho]
    refine ⟨⟨fun hfine => absurd hfine ?_, fun h => absurd h hok⟩, fun _ h => absurd h hok⟩
    exact (take_broken hb n (some h) hf).not_wellFormed
  · simp only [step, hh, ho]
    refine ⟨⟨fun hfine => absurd hfine ?_, fun h => absurd h hok⟩, fun _ h => absurd h hok⟩
    intro hfine
    have := hfine m hmn
    rw [hm] at this
    exact absurd this (by simp)

/-- From a good state, an operation ends as it should exactly when the state
lets it, and then the state after it is good too. -/
theorem step_fine {MEM_BLOCK_NR : Nat} {s : AllocState} (hg : Good MEM_BLOCK_NR s)
    (op : AllocOp) :
    (Fine s op (step MEM_BLOCK_NR op s) ↔ StepOk s op) ∧
      ∀ s', StepOk s op → step MEM_BLOCK_NR op s = .ok s' → Good MEM_BLOCK_NR s' := by
  obtain ⟨l, free, chain, ho, hp, hown⟩ := id hg
  have hhead : ∀ n, HeadOfMany s n → s.valid_code_blocks n = true := by
    rintro n ⟨hk, -⟩
    rw [ho.list.head_eq] at hk
    exact (ho.owners n).mp (List.mem_of_mem_head? hk)
  cases op with
  | allocate n => exact allocate_step hg n
  | grow n =>
    rcases hh : s.head_mem_block n with _ | h
    · simp only [step, hh]
      refine ⟨⟨fun _ hne => absurd hh hne, fun _ => hg.wellFormed⟩, ?_⟩
      rintro t - ht
      cases ht
      exact hg
    · have hstep := grow_step hg n hh
      have hne : s.head_mem_block n ≠ none := by rw [hh]; simp
      exact ⟨hstep.1.trans ⟨fun hok _ => hok, fun hok => hok hne⟩,
        fun s' hok => hstep.2 s' (hok hne)⟩
  | free n =>
    rcases hb : s.head_mem_block n with _ | b
    · simp only [step, hb]
      refine ⟨⟨fun _ hk => ?_, fun _ => hg.wellFormed⟩, ?_⟩
      · exact (hown n).mp ((ho.owners n).mpr (hhead n hk)) hb
      · rintro t - ht
        cases ht
        exact hg
    · obtain ⟨s', h1, -, -, h4, h5, -⟩ := free_good hg hb
      simp only [step, hb, h1, Option.map_some, ofOption]
      refine ⟨⟨fun hfine hk => ?_, fun hk => (h4 hk).wellFormed⟩, ?_⟩
      · exact (h5 hk).not_wellFormed (hfine.same ⟨rfl, rfl, rfl, rfl, rfl, rfl⟩)
      · rintro t hk ht
        cases ht
        exact h4 hk
  | delete n =>
    by_cases hv : s.valid n = true ∧ s.valid_code_blocks n = true
    · obtain ⟨s', h1, -, h3, h4, -⟩ := delete_good hg hv.1 hv.2
      simp only [step, h1, ofOption]
      refine ⟨⟨fun hfine _ hk => (h4 hk).not_wellFormed hfine,
        fun hk => (h3 (hk hv.1)).wellFormed⟩, ?_⟩
      rintro t hk ht
      cases ht
      exact h3 (hk hv.1)
    · have hno : s.valid n = false ∨ s.valid_code_blocks n = false := by
        rw [not_and_or] at hv
        simpa using hv
      obtain ⟨s', h1, hg'⟩ := delete_keeps hg hno
      simp only [step, h1, ofOption]
      refine ⟨⟨fun _ hvn hk => hv ⟨hvn, hhead n hk⟩, fun _ => hg'.wellFormed⟩, ?_⟩
      rintro t - ht
      cases ht
      exact hg'
  | validate n =>
    have hg' : Good MEM_BLOCK_NR { s with valid := Function.update s.valid n true } :=
      ⟨l, free, chain, ho.same ⟨rfl, rfl, rfl, rfl, rfl, rfl⟩,
        ⟨hp.1, hp.2, hp.3, hp.4, hp.5, hp.6, hp.7, hp.8, hp.9, hp.10⟩, hown⟩
    refine ⟨⟨fun _ => trivial, fun _ => hg'.wellFormed⟩, ?_⟩
    rintro t - ht
    cases ht
    exact hg'

theorem init_walk (MEM_BLOCK_NR : Nat) (k j : Nat) (h : k + j + 1 = MEM_BLOCK_NR) :
    Walk (link (codegen_allocator_init MEM_BLOCK_NR)) (some k) (List.range' k (j + 1)) := by
  induction j generalizing k with
  | zero =>
    refine ⟨rfl, ?_⟩
    have hk : ¬k < MEM_BLOCK_NR - 1 := by omega
    simp [Walk, link, codegen_allocator_init, hk, blockAt]
  | succ j ih =>
    refine ⟨rfl, ?_⟩
    have hk : k < MEM_BLOCK_NR - 1 := by omega
    have hl : link (codegen_allocator_init MEM_BLOCK_NR) k = some (k + 1) := by
      simp [link, codegen_allocator_init, hk, blockAt]
    rw [hl]
    exact ih (k + 1) (by omega)

theorem init_good (MEM_BLOCK_NR : Nat) (h : 0 < MEM_BLOCK_NR) :
    Good MEM_BLOCK_NR (codegen_allocator_init MEM_BLOCK_NR) := by
  refine ⟨[], List.range' 0 MEM_BLOCK_NR, fun _ => [], ?_, ?_, ?_⟩
  · exact ⟨isList_nil _ _, by simp [codegen_allocator_init], by simp,
      fun _ _ => ⟨rfl, rfl⟩⟩
  · refine ⟨?_, List.nodup_range', ?_, fun _ => rfl, fun _ => List.nodup_nil, by simp, ?_, ?_,
      by simp, by simp⟩
    · obtain ⟨k, rfl⟩ : ∃ k, MEM_BLOCK_NR = k + 1 := ⟨MEM_BLOCK_NR - 1, by omega⟩
      exact init_walk (k + 1) 0 k (by omega)
    · intro b hb
      have := List.mem_range'_1.mp hb
      omega
    · intro n h hn
      exact absurd hn (by simp [codegen_allocator_init])
    · intro n h hn
      exact absurd hn (by simp [codegen_allocator_init])
  · intro n
    simp [codegen_allocator_init]

/-- The states of the runs whose steps are all let by the state before. -/
inductive Reached (MEM_BLOCK_NR : Nat) : AllocState → Prop
  | init : Reached MEM_BLOCK_NR (codegen_allocator_init MEM_BLOCK_NR)
  | step {s s' : AllocState} (op : AllocOp) : Reached MEM_BLOCK_NR s → StepOk s op →
      step MEM_BLOCK_NR op s = .ok s' → Reached MEM_BLOCK_NR s'

theorem Reached.good {MEM_BLOCK_NR : Nat} (hn : 0 < MEM_BLOCK_NR) {s : AllocState}
    (h : Reached MEM_BLOCK_NR s) : Good MEM_BLOCK_NR s := by
  induction h with
  | init => exact init_good MEM_BLOCK_NR hn
  | step op _ hok hs ih => exact (step_fine ih op).2 _ hok hs

/-- The list of owners is well formed in every such state, and the next
operation keeps it so, or fails for want of another owner, exactly when the
state lets it. -/
theorem the_owners_stand_in_a_list (MEM_BLOCK_NR : Nat) (hn : 0 < MEM_BLOCK_NR) (s : AllocState)
    (h : Reached MEM_BLOCK_NR s) :
    ListWellFormed s ∧ ∀ op, Fine s op (step MEM_BLOCK_NR op s) ↔ StepOk s op :=
  ⟨(h.good hn).wellFormed, fun op => (step_fine (h.good hn) op).1⟩

/-! ## The runs of two owners -/

def run (MEM_BLOCK_NR : Nat) : List AllocOp → AllocState → Result
  | [], s => .ok s
  | op :: ops, s =>
    match step MEM_BLOCK_NR op s with
    | .ok s => run MEM_BLOCK_NR ops s
    | r => r

def afterRun (ops : List AllocOp) : AllocState :=
  match run 131072 ops (codegen_allocator_init 131072) with
  | .ok s => s
  | _ => codegen_allocator_init 131072

theorem two_owners_stand_in_a_list :
    ListWellFormed (afterRun [.allocate 1, .allocate 2]) ∧
      ∀ op, Fine (afterRun [.allocate 1, .allocate 2]) op
        (step 131072 op (afterRun [.allocate 1, .allocate 2])) ↔
          StepOk (afterRun [.allocate 1, .allocate 2]) op := by
  apply the_owners_stand_in_a_list 131072 (by decide)
  have h1 : Reached 131072 (afterRun [.allocate 1]) :=
    .step (.allocate 1) .init (fun h0 => absurd h0 (by decide)) rfl
  exact .step (.allocate 2) h1 (fun h0 => absurd h0 (by decide)) rfl

/-- The first of two owners freed: the walk back from the tail ends at it. -/
theorem the_freed_first_owner_stays_behind :
    ¬ListWellFormed (afterRun [.allocate 1, .allocate 2, .free 1]) := by
  apply Broken.not_wellFormed
  exact ⟨2, 1, rfl, rfl, rfl⟩

end blumach.codegen_allocator
