-- What the steps that build a block do to the versions of the registers: a read
-- counts at the last version of its register, and a write starts a new version and
-- may put the one before it in the dead list.
import BluMach.CodegenReg

namespace blumach.codegen_reg

@[simp] theorem setVersion_self (reg : IReg) (version : Nat) (regv : RegVersion) (s : RegState) :
    (setVersion reg version regv s).reg_version reg version = regv := by
  simp [setVersion]

theorem setVersion_of_ne {reg reg' : IReg} {version version' : Nat} (regv : RegVersion)
    (s : RegState) (h : reg' ≠ reg ∨ version' ≠ version) :
    (setVersion reg version regv s).reg_version reg' version' = s.reg_version reg' version' := by
  unfold setVersion
  by_cases hr : reg' = reg
  · subst hr
    rcases h with h | h
    · exact absurd rfl h
    · simp [h]
  · simp [hr]

/-! ## Reads -/

/-- The change that reads make, `c` of them of each register. -/
structure ReadStep (c : IReg → Nat) (s s' : RegState) : Prop where
  reg_last_version : s'.reg_last_version = s.reg_last_version
  dirty_ir_regs : s'.dirty_ir_regs = s.dirty_ir_regs
  reg_dead_list : s'.reg_dead_list = s.reg_dead_list
  uops : s'.uops = s.uops
  wr_pos : s'.wr_pos = s.wr_pos
  parent_uop : ∀ r v, (s'.reg_version r v).parent_uop = (s.reg_version r v).parent_uop
  next : ∀ r v, (s'.reg_version r v).next = (s.reg_version r v).next
  other : ∀ r v, v ≠ s.reg_last_version r → s'.reg_version r v = s.reg_version r v
  refcount : ∀ r, (s'.reg_version r (s.reg_last_version r)).refcount =
    (s.reg_version r (s.reg_last_version r)).refcount + c r
  required : ∀ r, (s.reg_version r (s.reg_last_version r)).required = false →
    (s'.reg_version r (s.reg_last_version r)).required = false

def readCount (op : Option Operand) (r : IReg) : Nat :=
  if op.map Operand.reg = some r then 1 else 0

theorem ReadStep.refl (s : RegState) : ReadStep (fun _ => 0) s s :=
  ⟨rfl, rfl, rfl, rfl, rfl, fun _ _ => rfl, fun _ _ => rfl, fun _ _ _ => rfl, fun _ => rfl,
    fun _ h => h⟩

theorem ReadStep.trans {c c' : IReg → Nat} {s s' s'' : RegState} (h : ReadStep c s s')
    (h' : ReadStep c' s' s'') : ReadStep (fun r => c r + c' r) s s'' := by
  have hl := h.reg_last_version
  refine ⟨h'.reg_last_version.trans hl, h'.dirty_ir_regs.trans h.dirty_ir_regs,
    h'.reg_dead_list.trans h.reg_dead_list, h'.uops.trans h.uops, h'.wr_pos.trans h.wr_pos,
    fun r v => (h'.parent_uop r v).trans (h.parent_uop r v),
    fun r v => (h'.next r v).trans (h.next r v), ?_, ?_, ?_⟩
  · intro r v hv
    rw [h'.other r v (by rwa [hl]), h.other r v hv]
  · intro r
    have h2 := h'.refcount r
    rw [hl] at h2
    rw [h2, h.refcount r]
    omega
  · intro r hr
    have h2 := h'.required r
    rw [hl] at h2
    exact h2 (h.required r hr)

theorem read_step {op : Operand} {s s' : RegState} {ir : IrReg}
    (h : codegen_reg_read op s = some (s', ir)) :
    ReadStep (readCount (some op)) s s' ∧ ir = ⟨op, s.reg_last_version op.reg⟩ := by
  simp only [codegen_reg_read] at h
  by_cases hmax : (s.reg_version op.reg (s.reg_last_version op.reg)).refcount = 255
  · rw [if_pos hmax] at h
    exact absurd h (by simp)
  · rw [if_neg hmax] at h
    obtain ⟨rfl, rfl⟩ := Prod.mk.inj (Option.some.inj h)
    have hcases : ∀ r v, (r = op.reg ∧ v = s.reg_last_version op.reg) ∨
        (r ≠ op.reg ∨ v ≠ s.reg_last_version op.reg) := by
      intro r v
      tauto
    refine ⟨⟨rfl, rfl, rfl, rfl, rfl, ?_, ?_, ?_, ?_, ?_⟩, rfl⟩
    · intro r v
      rcases hcases r v with ⟨rfl, rfl⟩ | hne
      · rw [setVersion_self]
      · rw [setVersion_of_ne _ _ hne]
    · intro r v
      rcases hcases r v with ⟨rfl, rfl⟩ | hne
      · rw [setVersion_self]
      · rw [setVersion_of_ne _ _ hne]
    · intro r v hv
      rcases hcases r v with ⟨rfl, rfl⟩ | hne
      · exact absurd rfl hv
      · rw [setVersion_of_ne _ _ hne]
    · intro r
      by_cases hr : r = op.reg
      · subst hr
        rw [setVersion_self]
        simp [readCount]
      · rw [setVersion_of_ne _ _ (Or.inl hr)]
        have hr' : ¬op.reg = r := fun h => hr h.symm
        simp [readCount, hr']
    · intro r hreq
      by_cases hr : r = op.reg
      · subst hr
        rw [setVersion_self]
      · rw [setVersion_of_ne _ _ (Or.inl hr)]
        exact hreq

theorem readOpt_step {op : Option Operand} {s s' : RegState} {ir : Option IrReg}
    (h : readOpt op s = some (s', ir)) :
    ReadStep (readCount op) s s' ∧ ir = op.map fun op => ⟨op, s.reg_last_version op.reg⟩ := by
  cases op with
  | none =>
    obtain ⟨rfl, rfl⟩ := Prod.mk.inj (Option.some.inj h)
    exact ⟨ReadStep.refl s, rfl⟩
  | some op =>
    simp only [readOpt, Option.map_eq_some_iff, Prod.mk.injEq] at h
    obtain ⟨⟨s₁, ir₁⟩, hr, rfl, rfl⟩ := h
    obtain ⟨h1, h2⟩ := read_step hr
    exact ⟨h1, by rw [h2]; rfl⟩

/-! ## Writes -/

/-- The version before goes to the dead list. -/
def Dies (op : Operand) (s : RegState) : Prop :=
  op.reg > IREG_EBX ∧ s.reg_last_version op.reg ≠ 0 ∧
    (s.reg_version op.reg (s.reg_last_version op.reg)).refcount = 0 ∧
    ¬(s.dirty_ir_regs op.reg = true ∧ op.reg < IREG_temp0) ∧
    (s.reg_version op.reg (s.reg_last_version op.reg)).required = false ∧
    reg_is_native_size op = true

instance (op : Operand) (s : RegState) : Decidable (Dies op s) := by
  unfold Dies
  infer_instance

/-- The change that a write of `op` by uop `nr` makes. -/
structure WriteStep (op : Operand) (nr : Nat) (s s' : RegState) : Prop where
  bound : s.reg_last_version op.reg < 255
  reg_last_version : s'.reg_last_version =
    Function.update s.reg_last_version op.reg (s.reg_last_version op.reg + 1)
  dirty_ir_regs : s'.dirty_ir_regs = Function.update s.dirty_ir_regs op.reg false
  uops : s'.uops = s.uops
  wr_pos : s'.wr_pos = s.wr_pos
  other : ∀ r v, (r ≠ op.reg ∨ (v ≠ s.reg_last_version op.reg ∧
    v ≠ s.reg_last_version op.reg + 1)) → s'.reg_version r v = s.reg_version r v
  old : (s'.reg_version op.reg (s.reg_last_version op.reg)).refcount =
      (s.reg_version op.reg (s.reg_last_version op.reg)).refcount ∧
    (s'.reg_version op.reg (s.reg_last_version op.reg)).parent_uop =
      (s.reg_version op.reg (s.reg_last_version op.reg)).parent_uop
  new : (s'.reg_version op.reg (s.reg_last_version op.reg + 1)).refcount = 0 ∧
    (s'.reg_version op.reg (s.reg_last_version op.reg + 1)).required = false ∧
    (s'.reg_version op.reg (s.reg_last_version op.reg + 1)).parent_uop = nr
  dies : Dies op s →
    s'.reg_dead_list = some (op.reg, s.reg_last_version op.reg) ∧
      (s'.reg_version op.reg (s.reg_last_version op.reg)).next = s.reg_dead_list
  lives : ¬Dies op s → s'.reg_dead_list = s.reg_dead_list

theorem clearDirty_fields (reg : IReg) (s : RegState) :
    (clearDirty reg s).reg_last_version = s.reg_last_version ∧
    (clearDirty reg s).dirty_ir_regs = Function.update s.dirty_ir_regs reg false ∧
    (clearDirty reg s).reg_dead_list = s.reg_dead_list ∧
    (clearDirty reg s).uops = s.uops ∧ (clearDirty reg s).wr_pos = s.wr_pos := by
  unfold clearDirty
  split
  · rename_i hd
    exact ⟨rfl, by rw [← hd, Function.update_eq_self], rfl, rfl, rfl⟩
  · split
    · exact ⟨rfl, rfl, rfl, rfl, rfl⟩
    · exact ⟨rfl, rfl, rfl, rfl, rfl⟩

theorem clearDirty_of_ne {reg : IReg} {s : RegState} {r : IReg} {v : Nat}
    (h : r ≠ reg ∨ v ≠ s.reg_last_version reg) :
    (clearDirty reg s).reg_version r v = s.reg_version r v := by
  unfold clearDirty
  split
  · rfl
  · split
    · rw [setVersion_of_ne _ _ h]
    · rfl

/-- The dirty bit makes the last version required, up to the temporaries. -/
theorem clearDirty_last (reg : IReg) (s : RegState) :
    (clearDirty reg s).reg_version reg (s.reg_last_version reg) =
      { s.reg_version reg (s.reg_last_version reg) with
        required := (s.reg_version reg (s.reg_last_version reg)).required ||
          decide (s.dirty_ir_regs reg = true ∧ reg > IREG_EBX ∧ reg < IREG_temp0 ∧
            s.reg_last_version reg > 0) } := by
  unfold clearDirty
  by_cases hd : s.dirty_ir_regs reg = false
  · simp only [hd, if_true, Bool.false_eq_true, false_and, decide_false, Bool.or_false]
  · rw [if_neg hd]
    rw [Bool.not_eq_false] at hd
    by_cases hr : reg > IREG_EBX ∧ reg < IREG_temp0 ∧ s.reg_last_version reg > 0
    · have hdec : decide (s.dirty_ir_regs reg = true ∧ reg > IREG_EBX ∧ reg < IREG_temp0 ∧
          s.reg_last_version reg > 0) = true := decide_eq_true ⟨hd, hr⟩
      rw [if_pos hr, setVersion_self, hdec, Bool.or_true]
    · have hdec : decide (s.dirty_ir_regs reg = true ∧ reg > IREG_EBX ∧ reg < IREG_temp0 ∧
          s.reg_last_version reg > 0) = false := decide_eq_false fun h => hr h.2
      rw [if_neg hr, hdec, Bool.or_false]

theorem checkDead_iff (op : Operand) (s : RegState) :
    checkDead op (clearDirty op.reg s) =
      if Dies op s then add_to_dead_list op.reg (s.reg_last_version op.reg) (clearDirty op.reg s)
      else clearDirty op.reg s := by
  have hl := (clearDirty_fields op.reg s).1
  unfold checkDead
  dsimp only
  rw [hl, clearDirty_last]
  by_cases hd : Dies op s
  · rw [if_pos hd]
    obtain ⟨h1, h2, h3, h4, h5, h6⟩ := hd
    rw [if_pos]
    refine ⟨h1, h2, h3, ?_, h6⟩
    rw [h5, Bool.false_or, decide_eq_false_iff_not]
    exact fun h => h4 ⟨h.1, h.2.2.1⟩
  · rw [if_neg hd, if_neg]
    rintro ⟨h1, h2, h3, h4, h6⟩
    rw [Bool.or_eq_false_iff, decide_eq_false_iff_not] at h4
    exact hd ⟨h1, h2, h3, fun h => h4.2 ⟨h.1, h1, h.2, Nat.pos_of_ne_zero h2⟩, h4.1, h6⟩

theorem add_to_dead_list_of_ne {reg : IReg} {version : Nat} {s : RegState} {r : IReg} {v : Nat}
    (h : r ≠ reg ∨ v ≠ version) :
    (add_to_dead_list reg version s).reg_version r v = s.reg_version r v :=
  setVersion_of_ne _ _ h

theorem add_to_dead_list_self (reg : IReg) (version : Nat) (s : RegState) :
    (add_to_dead_list reg version s).reg_version reg version =
      { s.reg_version reg version with next := s.reg_dead_list } :=
  setVersion_self _ _ _ _

theorem checkDead_other {op : Operand} {s : RegState} {r : IReg} {v : Nat}
    (h : r ≠ op.reg ∨ v ≠ s.reg_last_version op.reg) :
    (checkDead op (clearDirty op.reg s)).reg_version r v = s.reg_version r v := by
  rw [checkDead_iff]
  split
  · rw [add_to_dead_list_of_ne h, clearDirty_of_ne h]
  · rw [clearDirty_of_ne h]

theorem checkDead_last (op : Operand) (s : RegState) :
    ((checkDead op (clearDirty op.reg s)).reg_version op.reg
        (s.reg_last_version op.reg)).refcount =
      (s.reg_version op.reg (s.reg_last_version op.reg)).refcount ∧
    ((checkDead op (clearDirty op.reg s)).reg_version op.reg
        (s.reg_last_version op.reg)).parent_uop =
      (s.reg_version op.reg (s.reg_last_version op.reg)).parent_uop := by
  rw [checkDead_iff]
  split
  · rw [add_to_dead_list_self, clearDirty_last]
    exact ⟨rfl, rfl⟩
  · rw [clearDirty_last]
    exact ⟨rfl, rfl⟩

theorem checkDead_fields (op : Operand) (s : RegState) :
    (checkDead op (clearDirty op.reg s)).reg_last_version = s.reg_last_version ∧
    (checkDead op (clearDirty op.reg s)).dirty_ir_regs =
      Function.update s.dirty_ir_regs op.reg false ∧
    (checkDead op (clearDirty op.reg s)).uops = s.uops ∧
    (checkDead op (clearDirty op.reg s)).wr_pos = s.wr_pos := by
  obtain ⟨h1, h2, -, h4, h5⟩ := clearDirty_fields op.reg s
  rw [checkDead_iff]
  split
  · exact ⟨h1, h2, h4, h5⟩
  · exact ⟨h1, h2, h4, h5⟩

theorem write_step {op : Operand} {nr : Nat} {s s' : RegState} {ir : IrReg}
    (hb : s.reg_last_version op.reg ≤ 255) (h : codegen_reg_write op nr s = some (s', ir)) :
    WriteStep op nr s s' ∧ ir = ⟨op, s.reg_last_version op.reg + 1⟩ := by
  simp only [codegen_reg_write] at h
  by_cases hmax : s.reg_last_version op.reg = 255
  · rw [if_pos hmax] at h
    exact absurd h (by simp)
  · rw [if_neg hmax] at h
    obtain ⟨rfl, rfl⟩ := Prod.mk.inj (Option.some.inj h)
    obtain ⟨h1, h2, h3, h4⟩ := checkDead_fields op s
    have hnext : s.reg_last_version op.reg ≠ s.reg_last_version op.reg + 1 := by omega
    refine ⟨⟨by omega, ?_, h2, h3, h4, ?_, ?_, ?_, ?_, ?_⟩, rfl⟩
    · rw [← h1]
      rfl
    · intro r v hrv
      rw [setVersion_of_ne _ _ (by tauto)]
      exact checkDead_other (by tauto)
    · rw [setVersion_of_ne _ _ (Or.inr hnext)]
      exact checkDead_last op s
    · rw [setVersion_self]
      exact ⟨rfl, rfl, rfl⟩
    · intro hd
      rw [setVersion_of_ne _ _ (Or.inr hnext)]
      have hc := checkDead_iff op s
      rw [if_pos hd] at hc
      obtain ⟨-, -, hl, -, -⟩ := clearDirty_fields op.reg s
      constructor
      · exact congrArg RegState.reg_dead_list hc
      · show ((checkDead op (clearDirty op.reg s)).reg_version op.reg _).next = _
        rw [hc, add_to_dead_list_self, hl]
    · intro hd
      have hc := checkDead_iff op s
      rw [if_neg hd] at hc
      obtain ⟨-, -, hl, -, -⟩ := clearDirty_fields op.reg s
      exact (congrArg RegState.reg_dead_list hc).trans hl

/-! ## A whole uop -/

def UopCall.Writes (u : UopCall) (r : IReg) : Prop := ∃ op, u.dest = some op ∧ op.reg = r

def UopCall.WritesNative (u : UopCall) (r : IReg) : Prop :=
  ∃ op, u.dest = some op ∧ op.reg = r ∧ reg_is_native_size op = true

def UopCall.Reads (u : UopCall) (r : IReg) : Prop :=
  u.src_a.map Operand.reg = some r ∨ u.src_b.map Operand.reg = some r ∨
    u.src_c.map Operand.reg = some r

/-- The versions that the operands of a call get. -/
def uopOf (u : UopCall) (s : RegState) : Uop where
  type := u.type
  dest_reg_a := u.dest.map fun op => ⟨op, s.reg_last_version op.reg + 1⟩
  src_reg_a := u.src_a.map fun op => ⟨op, s.reg_last_version op.reg⟩
  src_reg_b := u.src_b.map fun op => ⟨op, s.reg_last_version op.reg⟩
  src_reg_c := u.src_c.map fun op => ⟨op, s.reg_last_version op.reg⟩

/-- The version before the write of `u` goes to the dead list. -/
def Kills (u : UopCall) (s : RegState) (r : IReg) : Prop :=
  r > IREG_EBX ∧ s.reg_last_version r ≠ 0 ∧
    (s.reg_version r (s.reg_last_version r)).refcount = 0 ∧ ¬u.Reads r ∧
    ¬((isBarrier u.type = true ∨ s.dirty_ir_regs r = true) ∧ r < IREG_temp0) ∧ u.WritesNative r

/-- The change that a uop makes, for a state whose last versions are not required. -/
structure GenStep (u : UopCall) (s s' : RegState) : Prop where
  wr_pos : s'.wr_pos = s.wr_pos + 1
  uops : s'.uops = Function.update s.uops s.wr_pos (uopOf u s)
  old : ∀ r v, v < s.reg_last_version r → s'.reg_version r v = s.reg_version r v
  parent_uop : ∀ r, (s'.reg_version r (s.reg_last_version r)).parent_uop =
    (s.reg_version r (s.reg_last_version r)).parent_uop
  refcount : ∀ r, (s'.reg_version r (s.reg_last_version r)).refcount = 0 ↔
    (s.reg_version r (s.reg_last_version r)).refcount = 0 ∧ ¬u.Reads r
  keep : ∀ r, ¬u.Writes r → s'.reg_last_version r = s.reg_last_version r ∧
    s'.dirty_ir_regs r = (isBarrier u.type || s.dirty_ir_regs r) ∧
    (0 < s.reg_last_version r → (s'.reg_version r (s.reg_last_version r)).required = false)
  write : ∀ r, u.Writes r → s.reg_last_version r < 255 ∧
    s'.reg_last_version r = s.reg_last_version r + 1 ∧ s'.dirty_ir_regs r = false ∧
    (s'.reg_version r (s.reg_last_version r + 1)).refcount = 0 ∧
    (s'.reg_version r (s.reg_last_version r + 1)).required = false ∧
    (s'.reg_version r (s.reg_last_version r + 1)).parent_uop = s.wr_pos
  dies : ∀ r, Kills u s r → s'.reg_dead_list = some (r, s.reg_last_version r) ∧
    (s'.reg_version r (s.reg_last_version r)).next = s.reg_dead_list
  lives : (∀ r, ¬Kills u s r) → s'.reg_dead_list = s.reg_dead_list

theorem readCount_pos (op : Option Operand) (r : IReg) :
    readCount op r = 0 ↔ op.map Operand.reg ≠ some r := by
  unfold readCount
  split
  · rename_i h
    simp [h]
  · rename_i h
    simp [h]

/-- The sources of a uop, read after its allocation. -/
theorem reads_step {u : UopCall} {s s₁ s₂ s₃ s₄ : RegState} {a b c : Option IrReg}
    (h1 : uop_alloc u.type s = some s₁) (ha : readOpt u.src_a s₁ = some (s₂, a))
    (hb : readOpt u.src_b s₂ = some (s₃, b)) (hc : readOpt u.src_c s₃ = some (s₄, c)) :
    s₁ = { s with
      wr_pos := s.wr_pos + 1
      dirty_ir_regs := if isBarrier u.type then fun _ => true else s.dirty_ir_regs } ∧
    (∃ k : IReg → Nat, ReadStep k s₁ s₄ ∧ ∀ r, k r = 0 ↔ ¬u.Reads r) ∧
    a = (u.src_a.map fun op => ⟨op, s.reg_last_version op.reg⟩) ∧
    b = (u.src_b.map fun op => ⟨op, s.reg_last_version op.reg⟩) ∧
    c = (u.src_c.map fun op => ⟨op, s.reg_last_version op.reg⟩) := by
  simp only [uop_alloc] at h1
  by_cases hmax : s.wr_pos ≥ 4096
  · rw [if_pos hmax] at h1
    exact absurd h1 (by simp)
  · rw [if_neg hmax] at h1
    have hs₁ := (Option.some.inj h1).symm
    obtain ⟨ga, ea⟩ := readOpt_step ha
    obtain ⟨gb, eb⟩ := readOpt_step hb
    obtain ⟨gc, ec⟩ := readOpt_step hc
    have hl : s₁.reg_last_version = s.reg_last_version := by rw [hs₁]
    rw [hl] at ea
    rw [ga.reg_last_version, hl] at eb
    rw [gb.reg_last_version, ga.reg_last_version, hl] at ec
    refine ⟨hs₁, ⟨_, (ga.trans gb).trans gc, ?_⟩, ea, eb, ec⟩
    intro r
    have h0a := readCount_pos u.src_a r
    have h0b := readCount_pos u.src_b r
    have h0c := readCount_pos u.src_c r
    unfold UopCall.Reads
    simp only [Nat.add_eq_zero_iff]
    tauto

/-- The state between the reads of a uop and its write. -/
structure AfterReads (u : UopCall) (s m : RegState) : Prop where
  reg_last_version : m.reg_last_version = s.reg_last_version
  wr_pos : m.wr_pos = s.wr_pos + 1
  reg_dead_list : m.reg_dead_list = s.reg_dead_list
  uops : m.uops = s.uops
  dirty_ir_regs : ∀ r, m.dirty_ir_regs r = (isBarrier u.type || s.dirty_ir_regs r)
  old : ∀ r v, v < s.reg_last_version r → m.reg_version r v = s.reg_version r v
  parent_uop : ∀ r v, (m.reg_version r v).parent_uop = (s.reg_version r v).parent_uop
  refcount : ∀ r, (m.reg_version r (s.reg_last_version r)).refcount = 0 ↔
    (s.reg_version r (s.reg_last_version r)).refcount = 0 ∧ ¬u.Reads r
  required : ∀ r, 0 < s.reg_last_version r →
    (m.reg_version r (s.reg_last_version r)).required = false

section

variable {u : UopCall} {s m m' : RegState} {op : Operand}

theorem afterReads {k : IReg → Nat}
    (hk : ReadStep k { s with
      wr_pos := s.wr_pos + 1
      dirty_ir_regs := if isBarrier u.type then fun _ => true else s.dirty_ir_regs } m)
    (hk0 : ∀ r, k r = 0 ↔ ¬u.Reads r)
    (hreq : ∀ r, 0 < s.reg_last_version r →
      (s.reg_version r (s.reg_last_version r)).required = false) : AfterReads u s m where
  reg_last_version := hk.reg_last_version
  wr_pos := hk.wr_pos
  reg_dead_list := hk.reg_dead_list
  uops := hk.uops
  dirty_ir_regs r := by
    rw [hk.dirty_ir_regs]
    cases isBarrier u.type <;> rfl
  old r v hlt := hk.other r v (Nat.ne_of_lt hlt)
  parent_uop := hk.parent_uop
  refcount r := by
    rw [hk.refcount r, Nat.add_eq_zero_iff, hk0]
  required r h0 := hk.required r (hreq r h0)

/-- A uop without a destination stops there. -/
theorem AfterReads.unwritten (h : AfterReads u s m) (hdest : u.dest = none) :
    GenStep u s { m with uops := Function.update m.uops (m.wr_pos - 1) (uopOf u s) } where
  wr_pos := h.wr_pos
  uops := by rw [h.uops, h.wr_pos, Nat.add_sub_cancel]
  old := h.old
  parent_uop r := h.parent_uop r _
  refcount := h.refcount
  keep r _ := ⟨congrFun h.reg_last_version r, h.dirty_ir_regs r, h.required r⟩
  write r := by
    rintro ⟨op, hop, -⟩
    exact nomatch hdest.symm.trans hop
  dies r := by
    rintro ⟨-, -, -, -, -, op, hop, -⟩
    exact nomatch hdest.symm.trans hop
  lives _ := h.reg_dead_list

theorem writes_iff (hdest : u.dest = some op) {r : IReg} : u.Writes r ↔ r = op.reg := by
  constructor
  · rintro ⟨op', hop, rfl⟩
    rw [hdest] at hop
    rw [Option.some.inj hop]
  · rintro rfl
    exact ⟨op, hdest, rfl⟩

theorem AfterReads.kills_iff_dies (h : AfterReads u s m) (hdest : u.dest = some op) {r : IReg} :
    Kills u s r ↔ r = op.reg ∧ Dies op m := by
  unfold Kills Dies
  rw [h.reg_last_version]
  constructor
  · rintro ⟨h1, h2, h3, h4, h5, op', hop, rfl, hn⟩
    rw [hdest] at hop
    obtain rfl := Option.some.inj hop
    refine ⟨rfl, h1, h2, (h.refcount _).mpr ⟨h3, h4⟩, ?_, h.required _ (Nat.pos_of_ne_zero h2), hn⟩
    rw [h.dirty_ir_regs, Bool.or_eq_true]
    exact h5
  · rintro ⟨rfl, h1, h2, h3, h4, -, hn⟩
    rw [h.dirty_ir_regs, Bool.or_eq_true] at h4
    exact ⟨h1, h2, ((h.refcount _).mp h3).1, ((h.refcount _).mp h3).2, h4, op, hdest, rfl, hn⟩

/-- The write leaves the count of the last version before, and the uop that wrote it. -/
theorem WriteStep.last (hw : WriteStep op s.wr_pos m m')
    (hlast : m.reg_last_version = s.reg_last_version) (r : IReg) :
    (m'.reg_version r (s.reg_last_version r)).refcount =
        (m.reg_version r (s.reg_last_version r)).refcount ∧
      (m'.reg_version r (s.reg_last_version r)).parent_uop =
        (m.reg_version r (s.reg_last_version r)).parent_uop := by
  by_cases hr : r = op.reg
  · subst hr
    have hold := hw.old
    rwa [hlast] at hold
  · rw [hw.other r _ (Or.inl hr)]
    exact ⟨rfl, rfl⟩

theorem AfterReads.written (h : AfterReads u s m) (hdest : u.dest = some op)
    (hw : WriteStep op s.wr_pos m m') :
    GenStep u s { m' with uops := Function.update m'.uops (m'.wr_pos - 1) (uopOf u s) } where
  wr_pos := hw.wr_pos.trans h.wr_pos
  uops := by rw [hw.uops, h.uops, hw.wr_pos, h.wr_pos, Nat.add_sub_cancel]
  old r v hlt := by
    refine (hw.other r v ?_).trans (h.old r v hlt)
    rw [h.reg_last_version]
    by_cases hr : r = op.reg
    · subst hr
      exact Or.inr ⟨by omega, by omega⟩
    · exact Or.inl hr
  parent_uop r := (hw.last h.reg_last_version r).2.trans (h.parent_uop r _)
  refcount r := by
    rw [← h.refcount]
    exact iff_of_eq (congrArg (· = 0) (hw.last h.reg_last_version r).1)
  keep r hr := by
    rw [writes_iff hdest] at hr
    dsimp only
    rw [hw.reg_last_version, Function.update_of_ne hr, h.reg_last_version, hw.dirty_ir_regs,
      Function.update_of_ne hr, h.dirty_ir_regs, hw.other r _ (Or.inl hr)]
    exact ⟨rfl, rfl, h.required r⟩
  write r hr := by
    rw [writes_iff hdest] at hr
    subst hr
    have hnew := hw.new
    have hbound := hw.bound
    rw [h.reg_last_version] at hnew hbound
    dsimp only
    rw [hw.reg_last_version, Function.update_self, h.reg_last_version, hw.dirty_ir_regs,
      Function.update_self]
    exact ⟨hbound, rfl, rfl, hnew⟩
  dies r hr := by
    obtain ⟨rfl, hdies⟩ := (h.kills_iff_dies hdest).mp hr
    have hlisted := hw.dies hdies
    rwa [h.reg_last_version, h.reg_dead_list] at hlisted
  lives hno := by
    refine (hw.lives fun hdies => ?_).trans h.reg_dead_list
    exact hno op.reg ((h.kills_iff_dies hdest).mpr ⟨rfl, hdies⟩)

end

theorem gen_step {u : UopCall} {s s' : RegState} (hb : ∀ r, s.reg_last_version r ≤ 255)
    (hreq : ∀ r, 0 < s.reg_last_version r →
      (s.reg_version r (s.reg_last_version r)).required = false)
    (h : uop_gen u s = some s') : GenStep u s s' := by
  simp only [uop_gen, Option.bind_eq_some_iff] at h
  obtain ⟨s₁, h1, ⟨s₂, a⟩, ha, ⟨s₃, b⟩, hb', ⟨s₄, c⟩, hc, ⟨s₅, d⟩, hd, hs⟩ := h
  obtain ⟨rfl, ⟨k, hk, hk0⟩, rfl, rfl, rfl⟩ := reads_step h1 ha hb' hc
  obtain rfl := (Option.some.inj hs).symm
  have hafter := afterReads hk hk0 hreq
  cases hdest : u.dest with
  | none =>
    rw [hdest] at hd
    obtain ⟨rfl, rfl⟩ := Prod.mk.inj (Option.some.inj hd)
    have hgen := hafter.unwritten hdest
    unfold uopOf at hgen
    rwa [hdest] at hgen
  | some op =>
    rw [hdest] at hd
    simp only [writeOpt, Option.map_eq_some_iff, Prod.mk.injEq] at hd
    obtain ⟨⟨s₆, ir⟩, hd, rfl, rfl⟩ := hd
    obtain ⟨hw, rfl⟩ := write_step (by rw [hafter.reg_last_version]; exact hb _) hd
    rw [hafter.wr_pos, Nat.add_sub_cancel] at hw
    have hgen := hafter.written hdest hw
    unfold uopOf at hgen
    rw [hdest] at hgen
    rw [hafter.reg_last_version]
    exact hgen

end blumach.codegen_reg
