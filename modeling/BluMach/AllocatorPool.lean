-- The memory that the allocator gives out. Whatever becomes of the list of owners, each block
-- of the pool is free or in one chain, and a chain is the blocks that were given out for it, in
-- order. This holds for any callers that free a chain once and let no code block keep the
-- chain of another one.
import BluMach.AllocatorLaws
import Mathlib.Tactic.SplitIfs

namespace blumach.codegen_allocator

open linked_list

/-! ## Chains -/

/-- The blocks of `c` are linked in this order, and the first of them knows the last one, unless
it is the last itself. -/
structure Chain (s : AllocState) (h : Nat) (c : List Nat) : Prop where
  head : c.head? = some h
  walk : Walk (link s) (some h) c
  tail : blockAt (s.mem_blocks h).tail = if c = [h] then none else c.getLast?

/-- The memory of the pool: what is free, and the chains. -/
structure Pool (MEM_BLOCK_NR : Nat) (s : AllocState) (free : List Nat)
    (chains : List (List Nat)) : Prop where
  free_walk : Walk (link s) (blockAt s.mem_block_free_list) free
  all : (free ++ chains.flatten).Perm (List.range MEM_BLOCK_NR)
  chain : ∀ c ∈ chains, ∃ h, Chain s h c
  usage : s.codegen_allocator_usage = chains.flatten.length
  /-- A code block that keeps a first block keeps that of a chain, and alone. -/
  kept : ∀ n h, s.head_mem_block n = some h → ∃ c ∈ chains, c.head? = some h
  alone : ∀ m n h, s.head_mem_block m = some h → s.head_mem_block n = some h → m = n

section

variable {MEM_BLOCK_NR : Nat} {s t : AllocState} {free c d : List Nat}
  {chains l₁ l₂ : List (List Nat)} {n : CodeBlock} {b h : Nat}

theorem Chain.congr (hc : Chain s h c) (hm : ∀ x ∈ c, t.mem_blocks x = s.mem_blocks x) :
    Chain t h c := by
  have hh : t.mem_blocks h = s.mem_blocks h := hm h (List.mem_of_mem_head? hc.head)
  refine ⟨hc.head, walk_congr (fun x hx => ?_) hc.walk, ?_⟩
  · unfold link
    rw [hm x hx]
  · rw [hh]
    exact hc.tail

theorem Chain.cons (hc : Chain s h c) : ∃ d, c = h :: d :=
  List.head?_eq_some_iff.mp hc.head

theorem Pool.nodup (hp : Pool MEM_BLOCK_NR s free chains) : (free ++ chains.flatten).Nodup :=
  hp.all.nodup_iff.mpr List.nodup_range

/-- A chain shares no block with the free list or with another chain. -/
theorem Pool.parts (hp : Pool MEM_BLOCK_NR s free (l₁ ++ c :: l₂)) :
    c.Nodup ∧ (∀ x ∈ c, x < MEM_BLOCK_NR) ∧ (∀ x ∈ c, x ∉ free) ∧
      ∀ d ∈ l₁ ++ l₂, ∀ x ∈ d, x ∉ c := by
  have hperm : (free ++ (l₁ ++ c :: l₂).flatten).Perm (c ++ (free ++ (l₁ ++ l₂).flatten)) := by
    rw [List.perm_iff_count]
    intro a
    simp only [List.flatten_append, List.flatten_cons, List.count_append]
    omega
  obtain ⟨hc, -, hdis⟩ := List.nodup_append.mp (hperm.nodup_iff.mp hp.nodup)
  refine ⟨hc, fun x hx => ?_, fun x hx hf => ?_, fun d hd x hx hxc => ?_⟩
  · have hmem := (hperm.symm.trans hp.all).mem_iff.mp (List.mem_append_left _ hx)
    exact List.mem_range.mp hmem
  · exact hdis x hx x (List.mem_append_left _ hf) rfl
  · exact hdis x hxc x (List.mem_append_right _ (List.mem_flatten_of_mem hd hx)) rfl

theorem Pool.free_parts (hp : Pool MEM_BLOCK_NR s (b :: free) chains) :
    b ∉ free ∧ ∀ c ∈ chains, b ∉ c := by
  have hnodup := hp.nodup
  rw [List.cons_append, List.nodup_cons, List.mem_append, not_or] at hnodup
  obtain ⟨hb, -⟩ := hnodup
  exact ⟨hb.1, fun c hc hbc => hb.2 (List.mem_flatten_of_mem hc hbc)⟩

/-- The chain with a first block is the only one with it. -/
theorem Pool.head_unique (hp : Pool MEM_BLOCK_NR s free (l₁ ++ c :: l₂)) (hc : c.head? = some h)
    (hd : d ∈ l₁ ++ l₂) : d.head? ≠ some h := fun hdh =>
  hp.parts.2.2.2 d hd h (List.mem_of_mem_head? hdh) (List.mem_of_mem_head? hc)

/-! ## Free -/

theorem remove_usage (n : CodeBlock) (s : AllocState) :
    (remove_from_block_list n s).codegen_allocator_usage = s.codegen_allocator_usage := by
  unfold remove_from_block_list
  dsimp only
  split
  · split <;> rfl
  · split
    · split <;> rfl
    · split <;> rfl

theorem add_usage (n : CodeBlock) (s : AllocState) :
    (add_to_block_list n s).codegen_allocator_usage = s.codegen_allocator_usage := by
  unfold add_to_block_list
  split <;> rfl

/-- What the free of a chain leaves. -/
structure Freed (s t : AllocState) (c : List Nat) (free : List Nat) : Prop where
  walk : Walk (link t) (blockAt t.mem_block_free_list) (c.reverse ++ free)
  rest : ∀ x, x ∉ c → t.mem_blocks x = s.mem_blocks x
  usage : t.codegen_allocator_usage = s.codegen_allocator_usage - c.length
  valid : t.valid = s.valid
  head_mem_block : t.head_mem_block = s.head_mem_block

theorem free_freed (hp : Pool MEM_BLOCK_NR s free (l₁ ++ c :: l₂)) (hc : Chain s h c) :
    ∃ t, codegen_allocator_free MEM_BLOCK_NR h s = some t ∧ Freed s t c free := by
  obtain ⟨hnodup, hbound, hfree, -⟩ := hp.parts
  obtain ⟨d, rfl⟩ := hc.cons
  let s₁ : AllocState := modifyBlock h (fun b => { b with tail := 0 }) s
  let s₂ : AllocState :=
    if s₁.valid_code_blocks (s₁.mem_blocks h).code_block then
      remove_from_block_list (s₁.mem_blocks h).code_block s₁
    else s₁
  have hframe : s₂.mem_blocks = s₁.mem_blocks ∧ s₂.mem_block_free_list = s.mem_block_free_list ∧
      s₂.codegen_allocator_usage = s.codegen_allocator_usage ∧ s₂.valid = s.valid ∧
      s₂.head_mem_block = s.head_mem_block := by
    unfold s₂
    split
    · obtain ⟨h1, h2, h3, h4⟩ := remove_frame (s₁.mem_blocks h).code_block s₁
      exact ⟨h1, h2, remove_usage _ _, h3, h4⟩
    · exact ⟨rfl, rfl, rfl, rfl, rfl⟩
  obtain ⟨hmem, hlist, husage, hvalid, hhead⟩ := hframe
  have hlink : ∀ x, link s₂ x = link s x := by
    intro x
    unfold link
    rw [hmem]
    by_cases hx : x = h
    · subst hx
      simp [s₁, modifyBlock]
    · simp [s₁, modifyBlock, hx]
  have hwalk := walk_congr (fun x _ => hlink x) hc.walk
  have hwalkf := walk_congr (fun x _ => hlink x) hp.free_walk
  rw [← hlist] at hwalkf
  obtain ⟨mb, fl, u, hrun, hw, hrest, -, hu⟩ := freeLoop_spec MEM_BLOCK_NR h d s₂ free
    (length_le_of_bounded hnodup hbound) hwalk hnodup hwalkf hfree
  refine ⟨_, hrun, hw, fun x hx => ?_, ?_, hvalid, hhead⟩
  · have hxh : x ≠ h := by
      rintro rfl
      exact hx List.mem_cons_self
    refine (hrest x hx).trans ?_
    rw [hmem]
    exact Function.update_of_ne hxh ..
  · rw [← husage]
    exact hu

/-- A first block is forgotten by the code block that keeps it. -/
def forget (h : Nat) (s : AllocState) : AllocState :=
  { s with head_mem_block := fun n =>
      if s.head_mem_block n = some h then none else s.head_mem_block n }

theorem forget_pool (hp : Pool MEM_BLOCK_NR s free (l₁ ++ c :: l₂)) (hc : c.head? = some h)
    (ht : Freed s t c free) : Pool MEM_BLOCK_NR (forget h t) (c.reverse ++ free) (l₁ ++ l₂) := by
  have hmem : ∀ d, d ∈ l₁ ++ c :: l₂ ↔ d = c ∨ d ∈ l₁ ++ l₂ := fun d => by
    simp only [List.mem_append, List.mem_cons]
    tauto
  have hkeeps : ∀ m k, (forget h t).head_mem_block m = some k →
      s.head_mem_block m = some k ∧ k ≠ h := by
    intro m k hk
    unfold forget at hk
    dsimp only at hk
    split_ifs at hk with hmh
    rw [← ht.head_mem_block]
    refine ⟨hk, ?_⟩
    rintro rfl
    exact hmh hk
  refine ⟨ht.walk, ?_, fun d hd => ?_, ?_, fun m k hk => ?_, fun m k x hm hk => ?_⟩
  · refine List.Perm.trans ?_ hp.all
    rw [List.perm_iff_count]
    intro a
    simp only [List.flatten_append, List.flatten_cons, List.count_append, List.count_reverse]
    omega
  · obtain ⟨k, hk⟩ := hp.chain d ((hmem d).mpr (Or.inr hd))
    refine ⟨k, hk.congr fun x hx => ?_⟩
    exact ht.rest x (hp.parts.2.2.2 d hd x hx)
  · have husage : (forget h t).codegen_allocator_usage = t.codegen_allocator_usage := rfl
    rw [husage, ht.usage, hp.usage]
    simp only [List.flatten_append, List.flatten_cons, List.length_append]
    omega
  · obtain ⟨hk, hne⟩ := hkeeps m k hk
    obtain ⟨d, hd, hdk⟩ := hp.kept m k hk
    refine ⟨d, ((hmem d).mp hd).resolve_left ?_, hdk⟩
    rintro rfl
    exact hne (Option.some.inj (hdk.symm.trans hc))
  · exact hp.alone m k x (hkeeps m x hm).1 (hkeeps k x hk).1

/-! ## Allocate -/

theorem takeBlock_rest (parent : Option Nat) (n : CodeBlock) (s : AllocState) :
    (takeBlock parent n s).1.head_mem_block = s.head_mem_block ∧
      (takeBlock parent n s).1.codegen_allocator_usage = s.codegen_allocator_usage + 1 := by
  unfold takeBlock modifyBlock
  cases parent with
  | none =>
    dsimp only
    split_ifs
    · rw [add_usage]
      exact ⟨(add_frame _ _).2.2.2, rfl⟩
    · exact ⟨rfl, rfl⟩
  | some h =>
    dsimp only
    split_ifs <;> exact ⟨rfl, rfl⟩

theorem Pool.free_cons (hp : Pool MEM_BLOCK_NR s free chains) (hf : s.mem_block_free_list ≠ 0) :
    ∃ b free', free = b :: free' ∧ s.mem_block_free_list = b + 1 := by
  have hw := hp.free_walk
  rw [blockAt_sub hf] at hw
  cases free with
  | nil => cases hw
  | cons b free' =>
    have hb := Option.some.inj hw.1
    exact ⟨b, free', rfl, by omega⟩

theorem take_none_pool (n : CodeBlock) (hp : Pool MEM_BLOCK_NR s free chains)
    (hf : s.mem_block_free_list ≠ 0) :
    ∃ free', Pool MEM_BLOCK_NR (takeBlock none n s).1 free'
      (chains ++ [[(takeBlock none n s).2]]) := by
  obtain ⟨b, free', rfl, hb⟩ := hp.free_cons hf
  obtain ⟨hb', hmem, hlist, -, hheads, -⟩ := takeBlock_none n s hb
  obtain ⟨hbf, hbc⟩ := hp.free_parts
  rw [hb']
  have hrest : ∀ x, x ≠ b → (takeBlock none n s).1.mem_blocks x = s.mem_blocks x := fun x hx => by
    rw [hmem, Function.update_of_ne hx]
  refine ⟨free', ?_, ?_, fun d hd => ?_, ?_, fun m k hk => ?_, ?_⟩
  · rw [hlist]
    refine walk_congr (fun x hx => ?_) hp.free_walk.2
    unfold link
    rw [hrest x (by rintro rfl; exact hbf hx)]
  · refine List.Perm.trans ?_ hp.all
    rw [List.perm_iff_count]
    intro a
    simp only [List.flatten_append, List.flatten_cons, List.flatten_nil, List.append_nil,
      List.count_append, List.cons_append, List.count_cons, List.count_nil]
    omega
  · rcases List.mem_append.mp hd with hold | hnew
    · obtain ⟨k, hk⟩ := hp.chain d hold
      exact ⟨k, hk.congr fun x hx => hrest x fun hxb => hbc d hold (hxb ▸ hx)⟩
    · obtain rfl := List.mem_singleton.mp hnew
      refine ⟨b, rfl, ⟨rfl, ?_⟩, ?_⟩
      · unfold link
        rw [hmem, Function.update_self]
        rfl
      · rw [hmem, Function.update_self, if_pos rfl]
        rfl
  · rw [(takeBlock_rest none n s).2, hp.usage]
    simp only [List.flatten_append, List.flatten_cons, List.flatten_nil, List.append_nil,
      List.length_append, List.length_singleton]
    omega
  · rw [hheads] at hk
    obtain ⟨d, hd, hdk⟩ := hp.kept m k hk
    exact ⟨d, List.mem_append_left _ hd, hdk⟩
  · rw [hheads]
    exact hp.alone

theorem take_some_pool (n : CodeBlock) (hp : Pool MEM_BLOCK_NR s free (l₁ ++ c :: l₂))
    (hc : Chain s h c) (hf : s.mem_block_free_list ≠ 0) :
    ∃ free', Pool MEM_BLOCK_NR (takeBlock (some h) n s).1 free'
      (l₁ ++ (c ++ [(takeBlock (some h) n s).2]) :: l₂) := by
  obtain ⟨b, free', rfl, hb⟩ := hp.free_cons hf
  obtain ⟨hbf, hbc⟩ := hp.free_parts
  have hbc' : b ∉ c := hbc c (by simp)
  have hhc : h ∈ c := List.mem_of_mem_head? hc.head
  have hhb : h ≠ b := fun heq => hbc' (heq ▸ hhc)
  obtain ⟨hlist, -, hheads, -, -, htail, -, -, -⟩ := takeBlock_some n s hb hhb
  have hb' : (takeBlock (some h) n s).2 = b := by
    show s.mem_block_free_list - 1 = b
    omega
  obtain ⟨hrest, hwalk⟩ : (∀ x, x ≠ b → x ∉ c →
      (takeBlock (some h) n s).1.mem_blocks x = s.mem_blocks x) ∧
      Walk (link (takeBlock (some h) n s).1) (some h) (c ++ [b]) := by
    have hwalk := hc.walk
    have hknows := hc.tail
    have hnodup := hp.parts.1
    obtain ⟨d, rfl⟩ := hc.cons
    exact takeBlock_chain n hb hbc' hnodup hwalk hknows
  have hsplit : ∀ e d, d ∈ l₁ ++ e :: l₂ ↔ d = e ∨ d ∈ l₁ ++ l₂ := fun e d => by
    simp only [List.mem_append, List.mem_cons]
    tauto
  rw [hb']
  refine ⟨free', ?_, ?_, fun d hd => ?_, ?_, fun m k hk => ?_, ?_⟩
  · rw [hlist]
    refine walk_congr (fun x hx => ?_) hp.free_walk.2
    unfold link
    rw [hrest x (by rintro rfl; exact hbf hx) fun hxc =>
      hp.parts.2.2.1 x hxc (List.mem_cons_of_mem _ hx)]
  · refine List.Perm.trans ?_ hp.all
    rw [List.perm_iff_count]
    intro a
    simp only [List.flatten_append, List.flatten_cons, List.count_append, List.cons_append,
      List.count_cons, List.count_nil]
    omega
  · rcases (hsplit _ d).mp hd with rfl | hother
    · refine ⟨h, ?_, hwalk, ?_⟩
      · rw [List.head?_append, hc.head]
        rfl
      · obtain ⟨e, rfl⟩ := hc.cons
        rw [htail, List.getLast?_concat, if_neg (by simp)]
        rfl
    · have hmem := (hsplit c d).mpr (Or.inr hother)
      obtain ⟨k, hk⟩ := hp.chain d hmem
      exact ⟨k, hk.congr fun x hx => hrest x (fun hxb => hbc d hmem (hxb ▸ hx))
        (hp.parts.2.2.2 d hother x hx)⟩
  · rw [(takeBlock_rest (some h) n s).2, hp.usage]
    simp only [List.flatten_append, List.flatten_cons, List.length_append, List.length_singleton]
    omega
  · rw [hheads] at hk
    obtain ⟨d, hd, hdk⟩ := hp.kept m k hk
    rcases (hsplit c d).mp hd with rfl | hother
    · refine ⟨_, (hsplit _ _).mpr (Or.inl rfl), ?_⟩
      rw [List.head?_append, hdk]
      rfl
    · exact ⟨d, (hsplit _ d).mpr (Or.inr hother), hdk⟩
  · rw [hheads]
    exact hp.alone

/-! ## Evictions -/

/-- The code block that keeps the chain, if one does, keeps it. -/
def Survives (s t : AllocState) (c : List Nat) : Prop :=
  ∀ m, s.head_mem_block m = c.head? → t.head_mem_block m = c.head?

instance (s t : AllocState) (c : List Nat) : Decidable (Survives s t c) :=
  inferInstanceAs (Decidable (∀ m, s.head_mem_block m = c.head? → t.head_mem_block m = c.head?))

/-- The chains that are not given back from `s` to `t`. -/
def survivors (s t : AllocState) (chains : List (List Nat)) : List (List Nat) :=
  chains.filter fun c => Survives s t c

/-- Only code blocks other than `n` lose their memory. -/
structure Later (n : CodeBlock) (s t : AllocState) : Prop where
  own : t.head_mem_block n = s.head_mem_block n
  lost : ∀ m, t.head_mem_block m = s.head_mem_block m ∨ t.head_mem_block m = none

theorem Later.refl (n : CodeBlock) (s : AllocState) : Later n s s := ⟨rfl, fun _ => Or.inl rfl⟩

theorem Later.trans {u : AllocState} (h : Later n s t) (h' : Later n t u) : Later n s u := by
  refine ⟨h'.own.trans h.own, fun m => ?_⟩
  rcases h'.lost m with hm | hm
  · rw [hm]
    exact h.lost m
  · exact Or.inr hm

theorem survivors_congr {u : AllocState} (h : u.head_mem_block = t.head_mem_block)
    (chains : List (List Nat)) : survivors s u chains = survivors s t chains := by
  unfold survivors
  refine List.filter_congr fun c _ => ?_
  rw [decide_eq_decide]
  unfold Survives
  rw [h]

theorem survivors_same (h : t.head_mem_block = s.head_mem_block) (chains : List (List Nat)) :
    survivors s t chains = chains := by
  unfold survivors
  refine List.filter_eq_self.mpr fun c _ => ?_
  rw [decide_eq_true_eq]
  unfold Survives
  rw [h]
  exact fun _ hm => hm

theorem survivors_trans {u : AllocState} (h : Later n s t) (h' : Later n t u)
    (hne : ∀ c ∈ chains, c.head? ≠ none) :
    survivors t u (survivors s t chains) = survivors s u chains := by
  unfold survivors
  rw [List.filter_filter]
  refine List.filter_congr fun c hc => ?_
  rw [← Bool.decide_and, decide_eq_decide]
  constructor
  · rintro ⟨hsecond, hfirst⟩ m hm
    exact hsecond m (hfirst m hm)
  · intro hall
    refine ⟨fun m hm => ?_, fun m hm => ?_⟩
    · rcases h.lost m with hsame | hnone
      · exact hall m (hsame ▸ hm)
      · exact absurd (hm.symm.trans hnone) (hne c hc)
    · have hlast := hall m hm
      rcases h'.lost m with hsame | hnone
      · exact hsame ▸ hlast
      · exact absurd (hlast.symm.trans hnone) (hne c hc)

theorem Pool.head_ne (hp : Pool MEM_BLOCK_NR s free chains) (c : List Nat) (hc : c ∈ chains) :
    c.head? ≠ none := by
  obtain ⟨h, hch⟩ := hp.chain c hc
  rw [hch.head]
  exact Option.some_ne_none h

/-- The memory does not depend on the list of owners, nor on which code blocks are valid. -/
theorem Pool.same (hp : Pool MEM_BLOCK_NR s free chains) (hm : t.mem_blocks = s.mem_blocks)
    (hf : t.mem_block_free_list = s.mem_block_free_list)
    (hu : t.codegen_allocator_usage = s.codegen_allocator_usage)
    (hh : t.head_mem_block = s.head_mem_block) : Pool MEM_BLOCK_NR t free chains := by
  refine ⟨?_, hp.all, fun c hc => ?_, hu.trans hp.usage, ?_, ?_⟩
  · rw [hf]
    refine walk_congr (fun x _ => ?_) hp.free_walk
    unfold link
    rw [hm]
  · obtain ⟨h, hch⟩ := hp.chain c hc
    exact ⟨h, hch.congr fun x _ => congrFun hm x⟩
  · rw [hh]
    exact hp.kept
  · rw [hh]
    exact hp.alone

theorem forget_heads (h : Nat) (hh : t.head_mem_block = s.head_mem_block) (m : CodeBlock) :
    (forget h t).head_mem_block m =
      if s.head_mem_block m = some h then none else s.head_mem_block m := by
  unfold forget
  rw [hh]

/-- When a code block forgets its chain, all other chains survive. -/
theorem survivors_forget {m : CodeBlock} (hp : Pool MEM_BLOCK_NR s free (l₁ ++ c :: l₂))
    (hc : c.head? = some h) (hm : s.head_mem_block m = some h)
    (hh : t.head_mem_block = s.head_mem_block) :
    survivors s (forget h t) (l₁ ++ c :: l₂) = l₁ ++ l₂ := by
  have hstays : ∀ d ∈ l₁ ++ l₂, Survives s (forget h t) d := by
    intro d hd j hj
    rw [forget_heads h hh, if_neg (by rw [hj]; exact hp.head_unique hc hd), hj]
  have hleaves : ¬Survives s (forget h t) c := by
    intro hall
    have hkept := hall m (hm.trans hc.symm)
    rw [forget_heads h hh, if_pos hm, hc] at hkept
    cases hkept
  unfold survivors
  rw [List.filter_append, List.filter_cons_of_neg (by simpa using hleaves),
    List.filter_eq_self.mpr fun d hd => by simpa using hstays d (List.mem_append_left _ hd),
    List.filter_eq_self.mpr fun d hd => by simpa using hstays d (List.mem_append_right _ hd)]

/-- The memory of a code block that is deleted is free, and no other. -/
theorem delete_pool (m : CodeBlock) (hp : Pool MEM_BLOCK_NR s free chains) (hmn : n ≠ m) :
    ∃ t free', codegen_delete_block MEM_BLOCK_NR m s = some t ∧
      Pool MEM_BLOCK_NR t free' (survivors s t chains) ∧ Later n s t := by
  unfold codegen_delete_block
  cases hv : s.valid m with
  | false => exact ⟨s, free, rfl, by rwa [survivors_same rfl], .refl n s⟩
  | true =>
    rw [if_pos rfl]
    dsimp only
    cases hb : s.head_mem_block m with
    | none =>
      refine ⟨_, free, rfl, ?_, ⟨rfl, fun _ => Or.inl rfl⟩⟩
      have hsame := hp.same (t := { s with valid := Function.update s.valid m false }) rfl rfl
        rfl rfl
      rwa [← survivors_same (s := s) (t := { s with valid := Function.update s.valid m false }) rfl
        chains] at hsame
    | some h =>
      obtain ⟨c, hc, hch⟩ := hp.kept m h hb
      obtain ⟨l₁, l₂, rfl⟩ := List.append_of_mem hc
      let s₁ : AllocState := { s with valid := Function.update s.valid m false }
      have hp₁ : Pool MEM_BLOCK_NR s₁ free (l₁ ++ c :: l₂) := hp.same rfl rfl rfl rfl
      obtain ⟨k, hk⟩ := hp₁.chain c hc
      obtain rfl : k = h := Option.some.inj (hk.head.symm.trans hch)
      obtain ⟨t, hrun, ht⟩ := free_freed hp₁ hk
      have hforget : { t with head_mem_block := Function.update t.head_mem_block m none } =
          forget k t := by
        unfold forget
        congr 1
        funext j
        rw [ht.head_mem_block]
        by_cases hj : j = m
        · subst hj
          rw [Function.update_self]
          exact (if_pos hb).symm
        · rw [Function.update_of_ne hj]
          exact (if_neg fun hjk => hj (hp.alone j m k hjk hb)).symm
      have hheads := forget_heads k ht.head_mem_block
      refine ⟨forget k t, c.reverse ++ free, ?_, ?_, ?_, fun j => ?_⟩
      · show (codegen_allocator_free MEM_BLOCK_NR k s₁).bind _ = _
        rw [hrun]
        exact congrArg some hforget
      · rw [survivors_forget hp hch hb ht.head_mem_block]
        exact forget_pool hp₁ hch ht
      · rw [hheads, if_neg fun hnk => hmn (hp.alone n m k hnk hb)]
      · rw [hheads]
        split_ifs
        · exact Or.inr rfl
        · exact Or.inl rfl

theorem evict_pool {fuel : Nat} {o : Option CodeBlock} (hp : Pool MEM_BLOCK_NR s free chains)
    (hrun : evictLoop MEM_BLOCK_NR n fuel o s = some t) :
    ∃ free', Pool MEM_BLOCK_NR t free' (survivors s t chains) ∧ Later n s t := by
  induction fuel generalizing o s free chains with
  | zero =>
    cases o with
    | none =>
      obtain rfl := Option.some.inj hrun
      exact ⟨free, by rwa [survivors_same rfl], .refl n s⟩
    | some m => cases hrun
  | succ fuel ih =>
    cases o with
    | none =>
      obtain rfl := Option.some.inj hrun
      exact ⟨free, by rwa [survivors_same rfl], .refl n s⟩
    | some m =>
      unfold evictLoop at hrun
      dsimp only at hrun
      by_cases hother : n ≠ s.cb_number m
      · rw [if_pos hother] at hrun
        obtain ⟨s₁, hs₁, hrest⟩ := Option.bind_eq_some_iff.mp hrun
        obtain ⟨s₂, free₂, hdel, hp₂, hlater⟩ := delete_pool (n := n) (s.cb_number m) hp hother
        obtain rfl := Option.some.inj (hdel.symm.trans hs₁)
        obtain ⟨free', hp', hlater'⟩ := ih hp₂ hrest
        rw [survivors_trans hlater hlater' hp.head_ne] at hp'
        exact ⟨free', hp', hlater.trans hlater'⟩
      · rw [if_neg hother] at hrun
        exact ih hp hrun

/-- A call that ends takes a block, after it may have evicted other code blocks. -/
theorem allocate_pool {parent : Option Nat} (hp : Pool MEM_BLOCK_NR s free chains)
    (hrun : codegen_allocator_allocate MEM_BLOCK_NR parent n s = .done t b) :
    ∃ s' free', Pool MEM_BLOCK_NR s' free' (survivors s s' chains) ∧ Later n s s' ∧
      s'.mem_block_free_list ≠ 0 ∧ t = (takeBlock parent n s').1 ∧
      b = (takeBlock parent n s').2 := by
  unfold codegen_allocator_allocate at hrun
  dsimp only at hrun
  split_ifs at hrun with hempty hone
  · cases hev : evictLoop MEM_BLOCK_NR n BLOCK_SIZE s.mem_code_block_head s with
    | none =>
      rw [hev] at hrun
      cases hrun
    | some s' =>
      rw [hev] at hrun
      dsimp only at hrun
      obtain ⟨free', hp', hlater⟩ := evict_pool hp hev
      split_ifs at hrun with hfound
      obtain ⟨rfl, rfl⟩ := Outcome.done.inj hrun
      exact ⟨s', free', hp', hlater, hfound, rfl, rfl⟩
  · obtain ⟨rfl, rfl⟩ := Outcome.done.inj hrun
    exact ⟨s, free, by rwa [survivors_same rfl], .refl n s, hempty, rfl, rfl⟩

end

/-! ## Runs -/

/-- The states of the runs of the allocator, with the blocks that were given out for each chain
since its first one, in order. A chain is freed once. What is freed is forgotten by the code block
that kept it. -/
inductive Run (MEM_BLOCK_NR : Nat) : AllocState → List (List Nat) → Prop
  | init : Run MEM_BLOCK_NR (codegen_allocator_init MEM_BLOCK_NR) []
  | allocate {s t : AllocState} {chains : List (List Nat)} {b : Nat} (n : CodeBlock) :
      Run MEM_BLOCK_NR s chains → codegen_allocator_allocate MEM_BLOCK_NR none n s = .done t b →
      Run MEM_BLOCK_NR t (survivors s t chains ++ [[b]])
  /-- One more block for a chain. No code block but `n` keeps it. -/
  | grow {s t : AllocState} {l₁ l₂ : List (List Nat)} {c : List Nat} {h b : Nat} (n : CodeBlock) :
      Run MEM_BLOCK_NR s (l₁ ++ c :: l₂) → c.head? = some h →
      (∀ m, m ≠ n → s.head_mem_block m ≠ some h) →
      codegen_allocator_allocate MEM_BLOCK_NR (some h) n s = .done t b →
      Run MEM_BLOCK_NR t (survivors s t l₁ ++ (c ++ [b]) :: survivors s t l₂)
  | free {s t : AllocState} {l₁ l₂ : List (List Nat)} {c : List Nat} {h : Nat} :
      Run MEM_BLOCK_NR s (l₁ ++ c :: l₂) → c.head? = some h →
      codegen_allocator_free MEM_BLOCK_NR h s = some t → Run MEM_BLOCK_NR (forget h t) (l₁ ++ l₂)
  /-- Code block `n` keeps the first block of a chain that no other one keeps. -/
  | keep {s : AllocState} {chains : List (List Nat)} {h : Nat} (n : CodeBlock) :
      Run MEM_BLOCK_NR s chains → (∃ c ∈ chains, c.head? = some h) →
      (∀ m, m ≠ n → s.head_mem_block m ≠ some h) →
      Run MEM_BLOCK_NR { s with head_mem_block := Function.update s.head_mem_block n (some h) }
        chains
  | setValid {s : AllocState} {chains : List (List Nat)} (valid : CodeBlock → Bool) :
      Run MEM_BLOCK_NR s chains → Run MEM_BLOCK_NR { s with valid := valid } chains

section

variable {MEM_BLOCK_NR : Nat} {s t : AllocState} {free c : List Nat}
  {chains l₁ l₂ : List (List Nat)} {n : CodeBlock} {b h : Nat}

theorem init_pool (hn : 0 < MEM_BLOCK_NR) :
    Pool MEM_BLOCK_NR (codegen_allocator_init MEM_BLOCK_NR) (List.range MEM_BLOCK_NR) [] := by
  obtain ⟨k, rfl⟩ : ∃ k, MEM_BLOCK_NR = k + 1 := ⟨MEM_BLOCK_NR - 1, by omega⟩
  have hwalk := init_walk (k + 1) 0 k (by omega)
  rw [← List.range_eq_range'] at hwalk
  refine ⟨hwalk, ?_, nofun, rfl, nofun, nofun⟩
  rw [List.flatten_nil, List.append_nil]

theorem allocate_keeps (hp : Pool MEM_BLOCK_NR s free chains)
    (hrun : codegen_allocator_allocate MEM_BLOCK_NR none n s = .done t b) :
    ∃ free', Pool MEM_BLOCK_NR t free' (survivors s t chains ++ [[b]]) := by
  obtain ⟨s', free', hp', hlater, hf, rfl, rfl⟩ := allocate_pool hp hrun
  rw [survivors_congr (takeBlock_rest none n s').1]
  exact take_none_pool n hp' hf

theorem grow_keeps (hp : Pool MEM_BLOCK_NR s free (l₁ ++ c :: l₂)) (hc : c.head? = some h)
    (hown : ∀ m, m ≠ n → s.head_mem_block m ≠ some h)
    (hrun : codegen_allocator_allocate MEM_BLOCK_NR (some h) n s = .done t b) :
    ∃ free', Pool MEM_BLOCK_NR t free' (survivors s t l₁ ++ (c ++ [b]) :: survivors s t l₂) := by
  obtain ⟨s', free', hp', hlater, hf, rfl, rfl⟩ := allocate_pool hp hrun
  have hstays : Survives s s' c := by
    intro m hm
    rw [hc] at hm ⊢
    have hmn : m = n := by
      by_contra hne
      exact hown m hne hm
    rw [hmn, hlater.own, ← hmn, hm]
  have hsplit : survivors s s' (l₁ ++ c :: l₂) =
      survivors s s' l₁ ++ c :: survivors s s' l₂ := by
    unfold survivors
    rw [List.filter_append, List.filter_cons_of_pos (by simpa using hstays)]
  rw [hsplit] at hp'
  rw [survivors_congr (takeBlock_rest (some h) n s').1,
    survivors_congr (takeBlock_rest (some h) n s').1]
  obtain ⟨k, hk⟩ := hp'.chain c (by simp)
  obtain rfl : k = h := Option.some.inj (hk.head.symm.trans hc)
  exact take_some_pool n hp' hk hf

theorem keep_keeps (hp : Pool MEM_BLOCK_NR s free chains) (hc : ∃ c ∈ chains, c.head? = some h)
    (hown : ∀ m, m ≠ n → s.head_mem_block m ≠ some h) :
    Pool MEM_BLOCK_NR { s with head_mem_block := Function.update s.head_mem_block n (some h) }
      free chains := by
  have hkeeps : ∀ m k, Function.update s.head_mem_block n (some h) m = some k →
      (m = n ∧ k = h) ∨ (m ≠ n ∧ s.head_mem_block m = some k) := by
    intro m k hk
    by_cases hmn : m = n
    · subst hmn
      rw [Function.update_self] at hk
      exact Or.inl ⟨rfl, (Option.some.inj hk).symm⟩
    · rw [Function.update_of_ne hmn] at hk
      exact Or.inr ⟨hmn, hk⟩
  refine ⟨hp.free_walk, hp.all, fun c hc => ?_, hp.usage, fun m k hk => ?_, fun m j k hm hj => ?_⟩
  · obtain ⟨k, hk⟩ := hp.chain c hc
    exact ⟨k, hk.congr fun _ _ => rfl⟩
  · rcases hkeeps m k hk with ⟨-, rfl⟩ | ⟨-, hk⟩
    · exact hc
    · exact hp.kept m k hk
  · rcases hkeeps m k hm with ⟨rfl, rfl⟩ | ⟨hmn, hmk⟩
    · rcases hkeeps j k hj with ⟨rfl, -⟩ | ⟨hjn, hjk⟩
      · rfl
      · exact absurd hjk (hown j hjn)
    · rcases hkeeps j k hj with ⟨rfl, rfl⟩ | ⟨-, hjk⟩
      · exact absurd hmk (hown m hmn)
      · exact hp.alone m j k hmk hjk

theorem run_pool (hn : 0 < MEM_BLOCK_NR) (hrun : Run MEM_BLOCK_NR s chains) :
    ∃ free, Pool MEM_BLOCK_NR s free chains := by
  induction hrun with
  | init => exact ⟨_, init_pool hn⟩
  | allocate n _ hcall ih =>
    obtain ⟨free, hp⟩ := ih
    exact allocate_keeps hp hcall
  | grow n _ hc hown hcall ih =>
    obtain ⟨free, hp⟩ := ih
    exact grow_keeps hp hc hown hcall
  | @free s t l₁ l₂ c h _ hc hcall ih =>
    obtain ⟨free, hp⟩ := ih
    obtain ⟨k, hk⟩ := hp.chain c (by simp)
    obtain rfl : k = h := Option.some.inj (hk.head.symm.trans hc)
    obtain ⟨u, hu, hfreed⟩ := free_freed hp hk
    obtain rfl := Option.some.inj (hu.symm.trans hcall)
    exact ⟨_, forget_pool hp hc hfreed⟩
  | keep n _ hc hown ih =>
    obtain ⟨free, hp⟩ := ih
    exact ⟨free, keep_keeps hp hc hown⟩
  | setValid valid _ ih =>
    obtain ⟨free, hp⟩ := ih
    exact ⟨free, hp.same rfl rfl rfl rfl⟩

/-- The memory of the pool is neither lost nor shared, and every chain can be freed. -/
theorem the_memory_is_shared_out (hn : 0 < MEM_BLOCK_NR) (hrun : Run MEM_BLOCK_NR s chains) :
    (∃ free, Pool MEM_BLOCK_NR s free chains) ∧
    ∀ c ∈ chains, ∀ h, c.head? = some h →
      (codegen_allocator_free MEM_BLOCK_NR h s).isSome = true := by
  obtain ⟨free, hp⟩ := run_pool hn hrun
  refine ⟨⟨free, hp⟩, fun c hc h hch => ?_⟩
  obtain ⟨l₁, l₂, rfl⟩ := List.append_of_mem hc
  obtain ⟨k, hk⟩ := hp.chain c hc
  obtain rfl : k = h := Option.some.inj (hk.head.symm.trans hch)
  obtain ⟨t, ht, -⟩ := free_freed hp hk
  rw [ht]
  rfl

end

/-- Code block 1 after its first block and after one more. -/
theorem two_blocks_for_one : ∃ t,
    (∃ free, Pool 131072 t free [[0, 1]]) ∧
    ∀ c ∈ [[0, 1]], ∀ h, c.head? = some h →
      (codegen_allocator_free 131072 h t).isSome = true := by
  have hinit : Run 131072 (codegen_allocator_init 131072) [] := .init
  have hfirst := Run.allocate (t := (takeBlock none 1 (codegen_allocator_init 131072)).1) (b := 0) 1
    hinit rfl
  have hsecond := @Run.grow 131072 _ _ [] [] [0] 0 1 1 hfirst rfl
    (fun m _ hm => Option.some_ne_none 0 hm.symm) rfl
  exact ⟨_, the_memory_is_shared_out (by decide) hsecond⟩

/-- What a call returns, with the state after it. -/
def Outcome.get (s : AllocState) : Outcome → AllocState × Nat
  | .done t b => (t, b)
  | _ => (s, 0)

/-- A pool of three blocks, all of them given out: two for code block 1 and one for code
block 2. -/
def fullPool : AllocState :=
  let s := codegen_allocator_init 3
  let s := ((codegen_allocator_allocate 3 none 1 s).get s).1
  let s := ((codegen_allocator_allocate 3 (some 0) 1 s).get s).1
  let s := ((codegen_allocator_allocate 3 none 2 s).get s).1
  { s with
    head_mem_block := fun n => if n = 1 then some 0 else if n = 2 then some 2 else none
    valid := fun n => n = 1 || n = 2 }

/-- A chain of one block has no tail. And a block that is given out for the chain of code
block 1 on behalf of code block 2, when the pool is empty, is on the free list as well. -/
theorem one_block_has_no_tail :
    let s := codegen_allocator_init 131072
    let one := (codegen_allocator_allocate 131072 none 1 s).get s
    let other := (codegen_allocator_allocate 3 (some 0) 2 fullPool).get fullPool
    one.2 = 0 ∧ (one.1.mem_blocks 0).tail = 0 ∧
      other.2 = 1 ∧ blockAt other.1.mem_block_free_list = some 0 ∧ link other.1 0 = some 1 := by
  exact ⟨rfl, rfl, rfl, rfl, rfl⟩

end blumach.codegen_allocator
