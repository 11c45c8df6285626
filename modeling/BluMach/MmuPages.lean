-- What the walks of two addresses in one page have in common, and why the walk of one page does
-- not change where the walk of another one leads: it sets bits that no walk looks at.
import BluMach.MmuArchLaws

namespace blumach.mmu

open bit_fields

/-! ## Addresses in one page -/

/-- The page, with an offset put on its address. -/
def Outcome.shift (offset : Nat) : Outcome → Outcome
  | .fault present => .fault present
  | .page address upper leaf => .page (address + offset) upper leaf

def pageStart (x : BitVec 32) : BitVec 32 := x &&& ~~~0xfff#32

section

variable {rw : Bool} {s : MmuState}

theorem pageStart_toNat (x : BitVec 32) : (pageStart x).toNat = 2 ^ 12 * (x.toNat / 2 ^ 12) := by
  have hx := x.isLt
  unfold pageStart
  rw [toNat_and_mask (by decide : IsMask 12 20 (~~~0xfff#32))]
  omega

theorem pageStart_parts (x : BitVec 32) :
    (pageStart x).toNat / 2 ^ 22 = x.toNat / 2 ^ 22 ∧
    (pageStart x).toNat / 2 ^ 12 % 2 ^ 10 = x.toNat / 2 ^ 12 % 2 ^ 10 ∧
    (pageStart x).toNat % 2 ^ 22 + x.toNat % 2 ^ 12 = x.toNat % 2 ^ 22 ∧
    (pageStart x).toNat / 2 ^ 30 = x.toNat / 2 ^ 30 ∧
    (pageStart x).toNat / 2 ^ 21 % 2 ^ 9 = x.toNat / 2 ^ 21 % 2 ^ 9 ∧
    (pageStart x).toNat / 2 ^ 12 % 2 ^ 9 = x.toNat / 2 ^ 12 % 2 ^ 9 ∧
    (pageStart x).toNat % 2 ^ 21 + x.toNat % 2 ^ 12 = x.toNat % 2 ^ 21 ∧
    (pageStart x).toNat % 2 ^ 12 = 0 := by
  rw [pageStart_toNat]
  omega

theorem twoLevels_shift (x : BitVec 32) :
    twoLevels x rw s = (twoLevels (pageStart x) rw s).shift (x.toNat % 2 ^ 12) := by
  obtain ⟨h1, h2, h3, -, -, -, -, h4⟩ := pageStart_parts x
  unfold twoLevels
  rw [h1, h2, h4]
  dsimp only
  split_ifs
  all_goals
    unfold Outcome.shift
    try rfl
  all_goals
    congr 1
    omega

theorem threeLevels_shift (x : BitVec 32) :
    threeLevels x rw s = (threeLevels (pageStart x) rw s).shift (x.toNat % 2 ^ 12) := by
  obtain ⟨-, -, -, h1, h2, h3, h4, h5⟩ := pageStart_parts x
  unfold threeLevels
  rw [h1, h2, h3, h5]
  dsimp only
  split_ifs
  all_goals
    unfold Outcome.shift
    try rfl
  all_goals
    congr 1
    omega

/-- A walk is the one of the start of its page. -/
theorem walk_shift (x : BitVec 32) :
    walk x rw s = (walk (pageStart x) rw s).shift (x.toNat % 2 ^ 12) := by
  unfold walk
  split_ifs
  · exact threeLevels_shift x
  · exact twoLevels_shift x

/-- The address of a page is a whole number of pages. -/
theorem walk_pageStart {x : BitVec 32} {address leaf : Nat} {upper : List Nat}
    (h : walk (pageStart x) rw s = .page address upper leaf) : address % 2 ^ 12 = 0 := by
  obtain ⟨-, -, -, -, -, -, -, h12⟩ := pageStart_parts x
  unfold walk at h
  split_ifs at h
  · unfold threeLevels at h
    dsimp only at h
    split_ifs at h
    · obtain ⟨rfl, -, -⟩ := Outcome.page.inj h
      omega
    · obtain ⟨rfl, -, -⟩ := Outcome.page.inj h
      omega
  · unfold twoLevels at h
    dsimp only at h
    split_ifs at h
    all_goals
      obtain ⟨rfl, -, -⟩ := Outcome.page.inj h
      omega

end

/-! ## Accessed and dirty bits -/

/-- The memory is the same but for the accessed and dirty bits; with PAE they are in the low halves
of the entries only. -/
structure SameButUsed (pae : Prop) (host host' : Nat → BitVec 32) : Prop where
  low : ∀ i, host' i &&& ~~~0x60#32 = host i &&& ~~~0x60#32
  high : pae → ∀ i, i % 2 = 1 → host' i = host i

theorem SameButUsed.refl (pae : Prop) (host : Nat → BitVec 32) : SameButUsed pae host host :=
  ⟨fun _ => rfl, fun _ _ _ => rfl⟩

theorem SameButUsed.trans {pae : Prop} {h₁ h₂ h₃ : Nat → BitVec 32} (h : SameButUsed pae h₁ h₂)
    (h' : SameButUsed pae h₂ h₃) : SameButUsed pae h₁ h₃ :=
  ⟨fun i => (h'.low i).trans (h.low i), fun hp i hi => (h'.high hp i hi).trans (h.high hp i hi)⟩

/-- The memory behind the tables is whole pages of the host, of 1024 dwords. -/
structure WholePages (s : MmuState) : Prop where
  backed : ∀ page b, s._mem_exec page = some b → b % 1024 = 0
  unbacked : s.mem_unbacked_pt_page % 1024 = 0

/-- Two entries that differ in their accessed and dirty bits at most. -/
def Alike {w : Nat} (e e' : BitVec w) : Prop := ∀ i, i ≠ 5 → i ≠ 6 → e'.getLsbD i = e.getLsbD i

section

variable {w : Nat} {e e' : BitVec w}

theorem Alike.flags (h : Alike e e') : present e' = present e ∧ writable e' = writable e ∧
    userPage e' = userPage e ∧ large e' = large e :=
  ⟨h 0 (by decide) (by decide), h 1 (by decide) (by decide), h 2 (by decide) (by decide),
    h 7 (by decide) (by decide)⟩

theorem Alike.high (h : Alike e e') : e'.toNat / 2 ^ 7 = e.toNat / 2 ^ 7 := by
  apply Nat.eq_of_testBit_eq
  intro i
  rw [Nat.testBit_div_two_pow, Nat.testBit_div_two_pow, BitVec.testBit_toNat, BitVec.testBit_toNat]
  exact h (i + 7) (by omega) (by omega)

theorem Alike.frame (h : Alike e e') {k : Nat} (hk : 7 ≤ k) : frame e' k = frame e k := by
  have hsplit : ∀ n : Nat, n / 2 ^ k = n / 2 ^ 7 / 2 ^ (k - 7) := by
    intro n
    rw [Nat.div_div_eq_div_mul, ← Nat.pow_add, Nat.add_sub_cancel' hk]
  unfold mmu.frame
  rw [hsplit, hsplit, h.high]

end

section

variable {s : MmuState} {h' : Nat → BitVec 32} {pae : Prop}

theorem cell_parity (hw : WholePages s) {x : Nat} (hx : x % 8 = 0) : cell s x % 2 = 0 := by
  have hbase : (s._mem_exec (x / 2 ^ 12)).getD s.mem_unbacked_pt_page % 1024 = 0 := by
    cases hb : s._mem_exec (x / 2 ^ 12) with
    | none => exact hw.unbacked
    | some b => exact hw.backed _ _ hb
  unfold cell
  omega

theorem host_alike (h : SameButUsed pae s.host h') (i : Nat) : Alike (s.host i) (h' i) := by
  intro k h5 h6
  have hk := congrArg (fun e => BitVec.getLsbD e k) (h.low i)
  have hmask : ∀ k < 32, k ≠ 5 → k ≠ 6 → (~~~0x60#32).getLsbD k = true := by decide
  by_cases hlt : k < 32
  · have hbit := hmask k hlt h5 h6
    rw [BitVec.getLsbD_and, BitVec.getLsbD_and, hbit, Bool.and_true, Bool.and_true] at hk
    exact hk
  · rw [BitVec.getLsbD_of_ge _ _ (by omega), BitVec.getLsbD_of_ge _ _ (by omega)]

theorem entry32_alike (h : SameButUsed pae s.host h') (x : Nat) :
    Alike (entry32 s x) (entry32 { s with host := h' } x) :=
  host_alike h (cell s x)

theorem entry64_alike (hw : WholePages s) (h : SameButUsed True s.host h') {x : Nat}
    (hx : x % 8 = 0) : Alike (entry64 s x) (entry64 { s with host := h' } x) := by
  intro k h5 h6
  have hlow := host_alike h (cell s x)
  have hparity := cell_parity hw hx
  have hhigh := h.high trivial (cell s x + 1) (by omega)
  have hcell : cell { s with host := h' } x = cell s x := rfl
  unfold entry64
  rw [BitVec.getLsbD_append, BitVec.getLsbD_append, hcell]
  dsimp only
  rw [hhigh]
  split_ifs
  · exact hlow k h5 h6
  · rfl

/-- A walk of two levels looks at no accessed or dirty bit. -/
theorem twoLevels_used {x : BitVec 32} {rw : Bool} (h : SameButUsed pae s.host h') :
    twoLevels x rw { s with host := h' } = twoLevels x rw s := by
  have he := fun x => entry32_alike h x
  have hpresent := fun x => (he x).flags.1
  have hwritable := fun x => (he x).flags.2.1
  have huser := fun x => (he x).flags.2.2.1
  have hlarge := fun x => (he x).flags.2.2.2
  have hframe12 := fun x => (he x).frame (k := 12) (by decide)
  have hframe22 := fun x => (he x).frame (k := 22) (by decide)
  have hpse36 : ∀ x, (entry32 { s with host := h' } x).toNat / 2 ^ 13 % 2 ^ 4 =
      (entry32 s x).toNat / 2 ^ 13 % 2 ^ 4 := by
    intro x
    have hhigh := (he x).high
    omega
  have hallows : ∀ user writable, Allows { s with host := h' } rw user writable =
      Allows s rw user writable := fun _ _ => rfl
  unfold twoLevels
  simp only [hpresent, hwritable, huser, hlarge, hframe12, hframe22, hpse36, hallows]

theorem threeLevels_used {x : BitVec 32} {rw : Bool} (hw : WholePages s)
    (h : SameButUsed True s.host h') :
    threeLevels x rw { s with host := h' } = threeLevels x rw s := by
  have hpointer : ∀ a b, Alike (entry64 s (2 ^ 5 * a + 8 * b))
      (entry64 { s with host := h' } (2 ^ 5 * a + 8 * b)) :=
    fun a b => entry64_alike hw h (by omega)
  have he : ∀ a b, Alike (entry64 s (2 ^ 12 * a + 8 * b))
      (entry64 { s with host := h' } (2 ^ 12 * a + 8 * b)) :=
    fun a b => entry64_alike hw h (by omega)
  have hpresent := fun a b => (hpointer a b).flags.1
  have hframe := fun a b => (hpointer a b).frame (k := 12) (by decide)
  have hpresent' := fun a b => (he a b).flags.1
  have hwritable := fun a b => (he a b).flags.2.1
  have huser := fun a b => (he a b).flags.2.2.1
  have hlarge := fun a b => (he a b).flags.2.2.2
  have hframe12 := fun a b => (he a b).frame (k := 12) (by decide)
  have hframe21 := fun a b => (he a b).frame (k := 21) (by decide)
  have hallows : ∀ user writable, Allows { s with host := h' } rw user writable =
      Allows s rw user writable := fun _ _ => rfl
  unfold threeLevels
  simp only [hpresent, hframe, hpresent', hwritable, huser, hlarge, hframe12, hframe21, hallows,
    -Nat.reducePow]

/-- Where a walk leads does not depend on the accessed and dirty bits. -/
theorem walk_used {x : BitVec 32} {rw : Bool} (hw : WholePages s)
    (h : SameButUsed (s.cr4 &&& CR4_PAE ≠ 0) s.host h') :
    walk x rw { s with host := h' } = walk x rw s := by
  unfold walk
  dsimp only
  split_ifs with hpae
  · exact threeLevels_used hw ⟨h.low, fun _ => h.high hpae⟩
  · exact twoLevels_used h

end

/-! ## Translations -/

/-- What a walk can change. -/
structure Walked (s s' : MmuState) : Prop where
  rest : s' = { s with
    cr2 := s'.cr2, abrt := s'.abrt, abrt_error := s'.abrt_error, host := s'.host }
  used : SameButUsed (s.cr4 &&& CR4_PAE ≠ 0) s.host s'.host

section

variable {s : MmuState} {x y : BitVec 32} {rw : Bool}

theorem usedHost_same (hw : WholePages s) {upper : List Nat} {leaf : Nat}
    (h8 : s.cr4 &&& CR4_PAE ≠ 0 → leaf % 8 = 0 ∧ ∀ x ∈ upper, x % 8 = 0) :
    SameButUsed (s.cr4 &&& CR4_PAE ≠ 0) s.host (usedHost rw upper leaf s) := by
  constructor
  · intro i
    unfold usedHost
    split_ifs
    all_goals
      rw [BitVec.and_or_distrib_right, BitVec.and_or_distrib_right]
      simp [ACCESSED, DIRTY]
  · intro hpae i hi
    obtain ⟨hleaf, hupper⟩ := h8 hpae
    have hl : i ≠ cell s leaf := by
      have hparity := cell_parity hw hleaf
      omega
    have hu : ¬∃ x ∈ upper, i = cell s x := by
      rintro ⟨x, hx, rfl⟩
      have hparity := cell_parity hw (hupper x hx)
      omega
    unfold usedHost
    rw [if_neg (fun h => h.elim hl hu), if_neg (fun h => hl h.2)]
    simp

/-- The entries of PAE have eight bytes. -/
theorem walk_entries {address leaf : Nat} {upper : List Nat}
    (h : walk x rw s = .page address upper leaf) (hpae : s.cr4 &&& CR4_PAE ≠ 0) :
    leaf % 8 = 0 ∧ ∀ x ∈ upper, x % 8 = 0 := by
  unfold walk at h
  rw [if_pos hpae] at h
  unfold threeLevels at h
  dsimp only at h
  split_ifs at h
  · obtain ⟨-, rfl, rfl⟩ := Outcome.page.inj h
    exact ⟨by omega, fun _ hx => absurd hx List.not_mem_nil⟩
  · obtain ⟨-, rfl, rfl⟩ := Outcome.page.inj h
    refine ⟨by omega, fun x hx => ?_⟩
    rw [List.mem_singleton.mp hx]
    omega

/-- A translation fails with an abort, or it gives an address and leaves no more than accessed and
dirty bits. -/
theorem real_cases (x : BitVec 32) (rw : Bool) (habrt : s.abrt = 0) (hw : WholePages s) :
    (∃ p, walk x rw s = .fault p ∧ (mmutranslatereal x rw s).2 = PHYS_INVALID ∧
      (mmutranslatereal x rw s).1.abrt ≠ 0 ∧ Walked s (mmutranslatereal x rw s).1) ∨
    ∃ address upper leaf h', walk x rw s = .page address upper leaf ∧ address < 2 ^ 40 ∧
      mmutranslatereal x rw s = ({ s with host := h' }, BitVec.ofNat 64 address) ∧
      SameButUsed (s.cr4 &&& CR4_PAE ≠ 0) s.host h' := by
  rw [real_walk habrt]
  cases hwalk : walk x rw s with
  | fault p =>
    refine Or.inl ⟨p, rfl, rfl, ?_, rfl, SameButUsed.refl _ _⟩
    unfold Outcome.result
    dsimp only
    decide
  | page address upper leaf =>
    exact Or.inr ⟨address, upper, leaf, _, rfl, walk_lt hwalk, rfl,
      usedHost_same hw fun hpae => walk_entries hwalk hpae⟩

theorem pageStart_eq (h : x.toNat / 2 ^ 12 = y.toNat / 2 ^ 12) : pageStart x = pageStart y := by
  apply BitVec.eq_of_toNat_eq
  rw [pageStart_toNat, pageStart_toNat, h]

/-- With an abort pending nothing is walked. -/
theorem real_stopped (x : BitVec 32) (rw : Bool) (h : s.abrt ≠ 0) :
    mmutranslatereal x rw s = (s, PHYS_INVALID) := by
  unfold mmutranslatereal
  rw [if_pos h]

/-- Two addresses of one page lead to one page. -/
theorem real_same_page (rw : Bool) (h : x.toNat / 2 ^ 12 = y.toNat / 2 ^ 12) :
    ((mmutranslatereal x rw s).2 = PHYS_INVALID ∧ (mmutranslatereal y rw s).2 = PHYS_INVALID) ∨
    ∃ base, base % 2 ^ 12 = 0 ∧ base < 2 ^ 40 ∧
      (mmutranslatereal x rw s).2 = BitVec.ofNat 64 (base + x.toNat % 2 ^ 12) ∧
      (mmutranslatereal y rw s).2 = BitVec.ofNat 64 (base + y.toNat % 2 ^ 12) := by
  by_cases habrt : s.abrt = 0
  · rw [real_walk habrt, real_walk habrt, walk_shift x, walk_shift y, ← pageStart_eq h]
    cases hwalk : walk (pageStart x) rw s with
    | fault p => exact Or.inl ⟨rfl, rfl⟩
    | page address upper leaf =>
      exact Or.inr ⟨address, walk_pageStart hwalk, walk_lt hwalk, rfl, rfl⟩
  · rw [real_stopped x rw habrt, real_stopped y rw habrt]
    exact Or.inl ⟨rfl, rfl⟩

/-- A translation does not depend on the accessed and dirty bits. -/
theorem real_used {h' : Nat → BitVec 32} (hw : WholePages s)
    (h : SameButUsed (s.cr4 &&& CR4_PAE ≠ 0) s.host h') :
    (mmutranslatereal x rw { s with host := h' }).2 = (mmutranslatereal x rw s).2 := by
  by_cases habrt : s.abrt = 0
  · have habrt' : ({ s with host := h' } : MmuState).abrt = 0 := habrt
    rw [real_walk habrt, real_walk habrt', walk_used hw h]
    cases walk x rw s with
    | fault p => rfl
    | page address upper leaf => rfl
  · have habrt' : ({ s with host := h' } : MmuState).abrt ≠ 0 := habrt
    rw [real_stopped x rw habrt, real_stopped x rw habrt']

end

end blumach.mmu
