-- The multiplications and divisions of the 808x core as instructions: f6, f7, and the 80186's 69
-- and 6b.
import BluMach.Cpu808xDivLaws

namespace blumach.cpu_808x

open arith_flags x86_flags signed_words

/-! ## The instructions -/

/-- A multiplication or division, with what it reads. -/
inductive MulDiv where
  /-- f6, f7 -/
  | rm (word : Bool) (op : Op) (rmdat : BitVec 8) (hop : rmdat &&& 0x38 = op.field) (ea : BitVec 16)
  /-- 69, and 6b with a byte -/
  | imm (byte : Bool) (rmdat : BitVec 8) (ea imm : BitVec 16)

def rmOpcode (word : Bool) : BitVec 8 := if word then 0xf7 else 0xf6

def immOpcode (byte : Bool) : BitVec 8 := if byte then 0x6b else 0x69

/-- The immediate, with its sign. -/
def immediateValue (byte : Bool) (imm : BitVec 16) : Int :=
  if byte then reading true 8 (imm.toNat % 2 ^ 8) else reading true 16 imm.toNat

/-- The instruction does what the manual says. -/
def MulDiv.Exact (is_nec : Bool) (m : Machine) : MulDiv → Prop
  | .rm word op rmdat _ ea =>
    match op with
    | .mul | .imul =>
      Multiplies op.signed word ea m (mul_rm is_nec (rmOpcode word) rmdat ea m)
    | .div | .idiv => Divides op.signed word ea m (div_rm (rmOpcode word) rmdat ea m)
  | .imm byte rmdat ea i =>
    ((imul_imm (immOpcode byte) rmdat ea i m.st).2.toNat : Int) =
      reading true 16 ea.toNat * immediateValue byte i % 2 ^ 16

/-- The immediate of 6b is below 0, and the product shows it. -/
def MulDiv.SignLost : MulDiv → Prop
  | .rm .. => False
  | .imm byte _ ea i => byte = true ∧ 2 ^ 7 ≤ i.toNat % 2 ^ 8 ∧ ea.toNat % 2 ^ 8 ≠ 0

/-- The code and the carry of an ADC are left in the state, and the loop adds. -/
def MulDiv.CarryLeft (m : Machine) : MulDiv → Prop
  | .rm word op _ _ _ =>
    (op = .mul ∨ op = .imul) ∧ m.st.cpu_alu_op = 2 ∧ m.st.carry = true ∧ m.lower word ≠ 0
  | .imm .. => False

/-- What 69 and 6b store. Only the upper half of the product shows a carry that was left. -/
theorem imul_imm_result (byte : Bool) (rmdat : BitVec 8) (ea imm : BitVec 16) (st : Cpu) :
    (imul_imm (immOpcode byte) rmdat ea imm st).2.toNat =
      ea.toNat * (fetched (immOpcode byte) imm).toNat % 2 ^ 16 := by
  have hword : isWord (immOpcode byte) = true := by cases byte <;> rfl
  have hop : immOpcode byte ≠ 0xd5 := by cases byte <;> decide
  have hea : ea.toNat % 2 ^ 16 = ea.toNat := Nat.mod_eq_of_lt ea.isLt
  have hy := Nat.mod_eq_of_lt (fetched (immOpcode byte) imm).isLt
  obtain ⟨hdata, p, extra, hp, hplt, hwide, -⟩ := @mul_spec true _ (immOpcode byte) rmdat ea
    (fetched (immOpcode byte) imm) { st with cpu_data := ea.setWidth 32 } _ _ hop hword rfl hea hy
  have hresult : (imul_imm (immOpcode byte) rmdat ea imm st).2 =
      (mul (immOpcode byte) rmdat ea (fetched (immOpcode byte) imm)
        { st with cpu_data := ea.setWidth 32 }).cpu_data.setWidth 16 := rfl
  rw [hresult, BitVec.toNat_setWidth]
  generalize mul (immOpcode byte) rmdat ea (fetched (immOpcode byte) imm)
    { st with cpu_data := ea.setWidth 32 } = st' at hdata hwide ⊢
  generalize (fetched (immOpcode byte) imm).toNat = y at *
  generalize mulSigned (immOpcode byte) rmdat = signed at *
  change st'.cpu_data.toNat < 2 ^ 16 at hdata
  change p < 2 ^ 32 at hplt
  change st'.cpu_dest.toNat % 2 ^ 16 * 2 ^ 16 + st'.cpu_data.toNat = complementIf _ 32 p at hwide
  change p = magnitude signed 16 ea.toNat * magnitude signed 16 y + 2 ^ 16 * extra at hp
  have hxlt := ea.isLt
  have hylt : y < 2 ^ 16 := by rw [← hy]; exact Nat.mod_lt _ (by decide)
  have hmod : (st'.cpu_data.toNat : Int) ≡ ea.toNat * y [ZMOD 2 ^ 16] := by
    calc (st'.cpu_data.toNat : Int)
        ≡ (st'.cpu_dest.toNat % 2 ^ 16 * 2 ^ 16 + st'.cpu_data.toNat : Nat) [ZMOD 2 ^ 16] :=
          Int.modEq_iff_dvd.mpr ⟨(st'.cpu_dest.toNat % 2 ^ 16 : Nat), by push_cast; ring⟩
      _ = (complementIf (negative signed 16 ea.toNat ^^ negative signed 16 y) 32 p : Nat) := by
          rw [hwide]
          rfl
      _ ≡ withSign (negative signed 16 ea.toNat ^^ negative signed 16 y) p [ZMOD 2 ^ 16] :=
          (complementIf_modEq hplt).of_dvd ⟨2 ^ 16, by norm_num⟩
      _ ≡ withSign (negative signed 16 ea.toNat ^^ negative signed 16 y)
            (magnitude signed 16 ea.toNat * magnitude signed 16 y) [ZMOD 2 ^ 16] :=
          withSign_modEq (Int.modEq_iff_dvd.mpr ⟨-extra, by rw [hp]; push_cast; ring⟩)
      _ = reading signed 16 ea.toNat * reading signed 16 y := by
          rw [← withSign_mul, ← reading_eq hxlt, ← reading_eq hylt]
      _ ≡ ea.toNat * y [ZMOD 2 ^ 16] := reading_modEq.mul reading_modEq
  have hnat : st'.cpu_data.toNat % 2 ^ 16 = ea.toNat * y % 2 ^ 16 := by
    refine Int.natCast_modEq_iff.mp ?_
    push_cast
    exact hmod
  exact hnat

/-- The immediate of 6b comes without its sign. -/
theorem fetched_toNat (byte : Bool) (imm : BitVec 16) :
    (fetched (immOpcode byte) imm).toNat = if byte then imm.toNat % 2 ^ 8 else imm.toNat := by
  cases byte with
  | false => rfl
  | true =>
    change ((imm.setWidth 8).setWidth 16).toNat = imm.toNat % 2 ^ 8
    rw [BitVec.toNat_setWidth, BitVec.toNat_setWidth]
    omega

theorem imm_exact_iff (is_nec : Bool) (m : Machine) (byte : Bool) (rmdat : BitVec 8)
    (ea imm : BitVec 16) :
    (MulDiv.imm byte rmdat ea imm).Exact is_nec m ↔ ¬(MulDiv.imm byte rmdat ea imm).SignLost := by
  have hresult := imul_imm_result byte rmdat ea imm m.st
  have hfetched := fetched_toNat byte imm
  simp only [MulDiv.Exact, MulDiv.SignLost, immediateValue, -Nat.reducePow, -Int.reducePow]
  rw [hresult, hfetched]
  cases byte with
  | false =>
    refine iff_of_true ?_ (fun h => Bool.false_ne_true h.1)
    rw [Int.natCast_mod, Nat.cast_mul]
    exact (reading_modEq.mul reading_modEq).symm
  | true =>
    have hlt := Nat.mod_lt imm.toNat (Nat.two_pow_pos 8)
    simp only [if_true, true_and, -Nat.reducePow, -Int.reducePow]
    generalize imm.toNat % 2 ^ 8 = y at hlt ⊢
    rw [Int.natCast_mod, Nat.cast_mul]
    change (ea.toNat : Int) * y ≡ _ [ZMOD 2 ^ 16] ↔ _
    have hx : reading true 16 ea.toNat * reading true 8 y ≡ ea.toNat * reading true 8 y
        [ZMOD 2 ^ 16] := reading_modEq.mul_right _
    by_cases hneg : 2 ^ 7 ≤ y
    · have hread : reading true 8 y = y - 2 ^ 8 := by
        rw [reading, show negative true 8 y = true from decide_eq_true hneg, if_pos rfl]
      rw [hread] at hx ⊢
      have hdiff : (ea.toNat : Int) * y - ea.toNat * (y - 2 ^ 8) = ea.toNat * 2 ^ 8 := by ring
      have hiff : (ea.toNat : Int) * (y - 2 ^ 8) ≡ ea.toNat * y [ZMOD 2 ^ 16] ↔
          ea.toNat % 2 ^ 8 = 0 := by
        rw [Int.modEq_iff_dvd, hdiff]
        omega
      constructor
      · rintro h ⟨-, hne⟩
        exact hne (hiff.mp (hx.symm.trans h.symm))
      · intro h
        have hzero : ea.toNat % 2 ^ 8 = 0 := by
          by_contra hne
          exact h ⟨hneg, hne⟩
        exact (hx.trans (hiff.mpr hzero)).symm
    · have hread : reading true 8 y = y := reading_magnitude (fun _ => Nat.lt_of_not_le hneg)
      rw [hread] at hx ⊢
      exact iff_of_true hx.symm (fun h => hneg h.1)

/-- The operations of f6 and f7, as `mul` and `x86_div` tell them apart. -/
theorem signed_of_field {op : Op} {rmdat : BitVec 8} (hop : rmdat &&& 0x38 = op.field)
    (word : Bool) :
    ((op = .mul ∨ op = .imul) → mulSigned (rmOpcode word) rmdat = op.signed ∧
      decide (rmdat &&& 0x38 = 0x20) = !op.signed) ∧
    ((op = .div ∨ op = .idiv) → divSigned (rmOpcode word) rmdat = op.signed) := by
  unfold mulSigned divSigned
  rw [hop]
  cases op <;> cases word <;> decide

/-- A multiplication or division is exact unless the sign of an immediate is lost, or a carry of an
ADC is left in the state. No instruction begins with one. -/
theorem products_and_quotients_are_exact_iff (is_nec : Bool) (m : Machine) (i : MulDiv) :
    (i.Exact is_nec m ↔ ¬i.SignLost ∧ ¬i.CarryLeft m) ∧ (Begins m.st → ¬i.CarryLeft m) := by
  constructor
  · cases i with
    | imm byte rmdat ea imm =>
      rw [imm_exact_iff]
      exact ⟨fun h => ⟨h, not_false⟩, fun h => h.1⟩
    | rm word op rmdat hop ea =>
      have hword : isWord (rmOpcode word) = word := by cases word <;> rfl
      have hmul : rmOpcode word ≠ 0xd5 := by cases word <;> decide
      have hdiv : rmOpcode word ≠ 0xd4 := by cases word <;> decide
      obtain ⟨hmuls, hdivs⟩ := signed_of_field hop word
      have hcarry : bumpedFor 2 m.st = true ↔ m.st.cpu_alu_op = 2 ∧ m.st.carry = true :=
        decide_eq_true_iff
      simp only [MulDiv.Exact, MulDiv.SignLost, MulDiv.CarryLeft, not_false_eq_true, true_and]
      cases op with
      | mul =>
        obtain ⟨hsigned, hunsigned⟩ := hmuls (.inl rfl)
        refine (multiplies_iff m is_nec _ rmdat ea hword hmul hsigned hunsigned).trans ?_
        rw [hcarry, and_assoc]
        simp only [true_or, true_and]
      | imul =>
        obtain ⟨hsigned, hunsigned⟩ := hmuls (.inr rfl)
        refine (multiplies_iff m is_nec _ rmdat ea hword hmul hsigned hunsigned).trans ?_
        rw [hcarry, and_assoc]
        simp only [or_true, true_and]
      | div =>
        refine iff_of_true (divides m _ rmdat ea hword hdiv (hdivs (.inl rfl))) ?_
        simp only [reduceCtorEq, or_self, false_and, not_false_eq_true]
      | idiv =>
        refine iff_of_true (divides m _ rmdat ea hword hdiv (hdivs (.inr rfl))) ?_
        simp only [reduceCtorEq, or_self, false_and, not_false_eq_true]
  · intro hbegins
    cases i with
    | imm => exact not_false
    | rm word op =>
      rintro ⟨-, hcode, -, -⟩
      exact absurd (hbegins.code.symm.trans hcode) (by decide)

/-- IMUL of 1 and -1, with the immediate in a byte, stores 255. -/
theorem the_product_of_a_negative_byte_is_positive :
    (imul_imm 0x6b 0xc0 1 0x00ff ⟨0x0002, 0, 0, 0, 0⟩).2 = 0x00ff ∧
      Begins ⟨0x0002, 0, 0, 0, 0⟩ ∧
      ¬(MulDiv.imm true 0xc0 1 0x00ff).Exact false ⟨⟨0x0002, 0, 0, 0, 0⟩, 0, 0, []⟩ := by
  refine ⟨by decide +kernel, .reset rfl, ?_⟩
  rw [imm_exact_iff]
  exact fun h => h ⟨rfl, by decide, by decide⟩

end blumach.cpu_808x
