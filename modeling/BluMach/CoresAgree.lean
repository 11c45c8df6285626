-- The two 8086 cores, `cpu/808x.c` and `cpu/808x_marty_86box.c`, agree on the
-- ALU and the shifter. Each is measured against one meaning: the arithmetic of
-- the manual, and so many places of a shift of a word of the operand's width.
import BluMach.MartyLaws

namespace blumach.cpu_808x

open arith_flags x86_flags m808x

/-! ## The logical operations of 808x -/

section

variable (word : Bool)

theorem stored_cleared (flags : BitVec 16) :
    stored (flags &&& ~~~(C_FLAG ||| A_FLAG ||| V_FLAG)) =
      { stored flags with c := false, a := false, o := false } := by
  have hbit : ∀ i, i < 16 → (flags &&& ~~~(C_FLAG ||| A_FLAG ||| V_FLAG)).getLsbD i =
      (flags.getLsbD i && !(C_FLAG ||| A_FLAG ||| V_FLAG).getLsbD i) := fun i hi => by
    rw [BitVec.getLsbD_and, BitVec.getLsbD_not, decide_eq_true hi, Bool.true_and]
  rw [stored_bits, stored_bits, hbit 0 (by decide), hbit 2 (by decide), hbit 4 (by decide),
    hbit 6 (by decide), hbit 7 (by decide), hbit 11 (by decide)]
  simp [C_FLAG, A_FLAG, V_FLAG]

theorem bitwise_spec (data : BitVec 16) (st : Cpu) :
    low word (bitwise (sizeBits word) data st).cpu_data = narrow word data ∧
      stored (bitwise (sizeBits word) data st).flags = logicFlags (narrow word data) := by
  have hbits := sizeBits_bounds word
  have hlow : low word (data.setWidth 32) = narrow word data :=
    BitVec.setWidth_setWidth_of_le data (by omega)
  refine ⟨hlow, ?_⟩
  have hp := @parity_low word (data.setWidth 32)
  have hz : decide (data.setWidth 32 &&& size_mask (sizeBits word) = 0) =
      decide (low word (data.setWidth 32) = 0) := decide_eq_decide.mpr (low_zero (data.setWidth 32))
  have hs := @top_bit_low word (data.setWidth 32)
  change evenParity _ = evenParity (low word _) at hp
  change _ = (low word _).msb at hs
  simp only [bitwise, set_pzs, set_sf, set_zf, set_zf_ex, set_pf, stored_N, stored_Z, stored_P,
    stored_cleared, hp, hz, hs, hlow]
  rfl

end

/-! ## One place of the shifts of 808x -/

/-- The globals hold a shifted word. A word that goes down has nothing above it. -/
structure Holds (word : Bool) (k : bit_shift.Kind) (st : Cpu)
    (s : bit_shift.Shifted (sizeBits word)) : Prop where
  value : low word st.cpu_data = s.value
  above : k.up = false → st.cpu_data = s.value.setWidth 32
  carry : (stored st.flags).c = s.carry
  changed : (stored st.flags).o = s.changed

section

variable {word : Bool} (b : Bool)

theorem low_up (x : BitVec 32) :
    low word (x <<< 1 ||| (if b then 1 else 0)) = bit_shift.intoBottom b (low word x) := by
  have hbits := sizeBits_bounds word
  exact @bit_shift.setWidth_up (sizeBits word) b 32 (by omega) (by omega) x

theorem signMask_eq (word : Bool) : signMask word = BitVec.twoPow 32 (sizeBits word - 1) := by
  cases word <;> rfl

theorem wide_down (x : BitVec (sizeBits word)) :
    x.setWidth 32 >>> 1 ||| (if b then signMask word else 0) =
      (bit_shift.intoTop b x).setWidth 32 := by
  have hbits := sizeBits_bounds word
  rw [signMask_eq]
  exact bit_shift.setWidth_down (by omega) (by omega)

theorem top_of_data (x : BitVec 32) :
    top_bit (x.setWidth 16) (sizeBits word) = (low word x).msb :=
  top_bit_low x

theorem bottom_of_data (x : BitVec 32) : isSet (x &&& 1) = (low word x).getLsbD 0 := by
  have hbits := sizeBits_bounds word
  rw [low, BitVec.getLsbD_setWidth, decide_eq_true (by omega : 0 < sizeBits word), Bool.true_and]
  exact isSet_twoPow x 0

end

section

variable {word : Bool} {k : bit_shift.Kind} {st : Cpu} {s : bit_shift.Shifted (sizeBits word)}

/-- A global that has gone one place, with the bit that the shift puts in, holds the next word. -/
theorem turned {st' : Cpu} (h : Holds word k st s) (b : Bool)
    (hdata : st'.cpu_data = if k.up then st.cpu_data <<< 1 ||| (if b then 1 else 0)
      else st.cpu_data >>> 1 ||| (if b then signMask word else 0))
    (hinto : b = k.into s.value s.carry) (hout : (stored st'.flags).c = k.out s.value)
    (hchanged : (stored st'.flags).o =
      ((low word st.cpu_data).msb ^^ (low word st'.cpu_data).msb)) :
    Holds word k st' (k.step s) := by
  have hbits := sizeBits_bounds word
  have hnew : low word st'.cpu_data = k.moved s.value s.carry ∧
      (k.up = false → st'.cpu_data = (k.moved s.value s.carry).setWidth 32) := by
    unfold bit_shift.Kind.moved
    rw [hdata, ← hinto]
    cases hup : k.up
    · simp only [Bool.false_eq_true, if_false, h.above hup, wide_down, forall_const]
      exact ⟨low_int32 word _, trivial⟩
    · simp only [if_true, low_up, h.value]
      exact ⟨trivial, nofun⟩
  refine ⟨hnew.1, hnew.2, hout, ?_⟩
  rw [hchanged, h.value, hnew.1]
  rfl

theorem stored_set_pzs (st : Cpu) :
    stored (set_pzs (sizeBits word) st).flags =
      { stored st.flags with
        p := evenParity (low word st.cpu_data)
        z := decide (low word st.cpu_data = 0)
        s := (low word st.cpu_data).msb } := by
  have hp := @parity_low word st.cpu_data
  have hz : decide (st.cpu_data &&& size_mask (sizeBits word) = 0) =
      decide (low word st.cpu_data = 0) := decide_eq_decide.mpr (low_zero st.cpu_data)
  have hs := @top_of_data word st.cpu_data
  change evenParity _ = evenParity (low word _) at hp
  simp only [set_pzs, set_sf, set_zf, set_zf_ex, set_pf, stored_N, stored_Z, stored_P, hp, hz, hs]

/-- The flags of a turn, but for those of the result. -/
theorem stored_turn (x d : BitVec 32) (flags : BitVec 16) (a out : Bool) :
    stored (setFlag A_FLAG a (setFlag V_FLAG (top_bit ((x ^^^ d).setWidth 16) (sizeBits word))
      (setFlag C_FLAG out flags))) =
      { stored flags with c := out, a := a, o := (low word d).msb ^^ (low word x).msb } := by
  rw [top_of_data, low_xor, BitVec.msb_xor, Bool.xor_comm]
  simp only [stored_A, stored_V, stored_C]

/-- A turn that also stores the flags of its result. -/
theorem stored_result_turn (x d : BitVec 32) (flags : BitVec 16) (a out : Bool) (op : Nat)
    (src dest : BitVec 32) :
    stored (set_pzs (sizeBits word) ⟨setFlag A_FLAG a (setFlag V_FLAG
      (top_bit ((x ^^^ d).setWidth 16) (sizeBits word)) (setFlag C_FLAG out flags)), op, src, dest,
      x⟩).flags =
      ⟨out, evenParity (low word x), a, decide (low word x = 0), (low word x).msb,
        (low word d).msb ^^ (low word x).msb⟩ := by
  rw [stored_set_pzs, stored_turn]

theorem shift_turned {st' : Cpu} (h : Holds word k st s) (b : Bool)
    (hdata : st'.cpu_data = if k.up then st.cpu_data <<< 1 ||| (if b then 1 else 0)
      else st.cpu_data >>> 1 ||| (if b then signMask word else 0))
    (hinto : b = k.into s.value s.carry) {out a : Bool}
    (hflags : stored st'.flags =
      ⟨out, evenParity (low word st'.cpu_data), a, decide (low word st'.cpu_data = 0),
        (low word st'.cpu_data).msb, (low word st.cpu_data).msb ^^ (low word st'.cpu_data).msb⟩)
    (hout : out = k.out s.value)
    (ha : a = (decide (k = .shl) && (low word st'.cpu_data).getLsbD 4)) :
    Holds word k st' (k.step s) ∧ stored st'.flags = shiftFlags k (k.step s) := by
  have hnew : Holds word k st' (k.step s) :=
    turned h b hdata hinto ((congrArg ArithFlags.c hflags).trans hout)
      (congrArg ArithFlags.o hflags)
  have ho := (congrArg ArithFlags.o hflags).symm.trans hnew.changed
  refine ⟨hnew, hflags.trans ?_⟩
  rw [shiftFlags, ← hnew.value, ← ho, ha, hout]
  rfl

/-- One turn of the loop is one place, and a shift stores the flags of its result. -/
theorem rotate_spec (h : Holds word k st s) :
    Holds word k (rotate word (fieldOf k) st) (k.step s) ∧
      (isShift k = true →
        stored (rotate word (fieldOf k) st).flags = shiftFlags k (k.step s)) := by
  have hbits := sizeBits_bounds word
  have hout : top_bit (st.cpu_data.setWidth 16) (sizeBits word) = s.value.msb := by
    rw [top_of_data, h.value]
  have hbottom : isSet (st.cpu_data &&& 1) = s.value.getLsbD 0 := by
    rw [@bottom_of_data word, h.value]
  cases k
  case rol =>
    have hflags := @stored_turn word (rotate word 0 st).cpu_data st.cpu_data st.flags false
      (top_bit (st.cpu_data.setWidth 16) (sizeBits word))
    refine ⟨turned h (stored (setFlag C_FLAG (top_bit (st.cpu_data.setWidth 16) (sizeBits word))
      st.flags)).c rfl ?_ ((congrArg ArithFlags.c hflags).trans hout)
      (congrArg ArithFlags.o hflags), nofun⟩
    rw [stored_C]
    exact hout
  case ror =>
    have hflags := @stored_turn word (rotate word 1 st).cpu_data st.cpu_data st.flags false
      (isSet (st.cpu_data &&& 1))
    refine ⟨turned h (stored (setFlag C_FLAG (isSet (st.cpu_data &&& 1)) st.flags)).c rfl ?_
      ((congrArg ArithFlags.c hflags).trans hbottom) (congrArg ArithFlags.o hflags), nofun⟩
    rw [stored_C]
    exact hbottom
  case rcl =>
    have hflags := @stored_turn word (rotate word 2 st).cpu_data st.cpu_data st.flags false
      (top_bit (st.cpu_data.setWidth 16) (sizeBits word))
    exact ⟨turned h (stored st.flags).c rfl h.carry ((congrArg ArithFlags.c hflags).trans hout)
      (congrArg ArithFlags.o hflags), nofun⟩
  case rcr =>
    have hflags := @stored_turn word (rotate word 3 st).cpu_data st.cpu_data
      (setFlag C_FLAG (isSet (st.cpu_data &&& 1)) st.flags) false (isSet (st.cpu_data &&& 1))
    exact ⟨turned h (stored st.flags).c rfl h.carry ((congrArg ArithFlags.c hflags).trans hbottom)
      (congrArg ArithFlags.o hflags), nofun⟩
  case shl =>
    have hflags := @stored_result_turn word (st.cpu_data <<< 1) st.cpu_data st.flags
      (isSet (st.cpu_data <<< 1 &&& 0x10)) (top_bit (st.cpu_data.setWidth 16) (sizeBits word))
      st.cpu_alu_op st.cpu_src st.cpu_data
    obtain ⟨hnew, hstored⟩ := @shift_turned word .shl st s (rotate word 4 st) h false
      BitVec.or_zero.symm rfl _ _ hflags hout (isSet_four word _)
    exact ⟨hnew, fun _ => hstored⟩
  case shr =>
    have hflags := @stored_result_turn word (st.cpu_data >>> 1) st.cpu_data st.flags false
      (isSet (st.cpu_data &&& 1)) st.cpu_alu_op st.cpu_src st.cpu_data
    obtain ⟨hnew, hstored⟩ := @shift_turned word .shr st s (rotate word 5 st) h false
      BitVec.or_zero.symm rfl _ _ hflags hbottom rfl
    exact ⟨hnew, fun _ => hstored⟩
  case sar =>
    have hflags := @stored_result_turn word (st.cpu_data >>> 1 ||| (st.cpu_data &&& signMask word))
      st.cpu_data st.flags false (isSet (st.cpu_data &&& 1)) st.cpu_alu_op st.cpu_src st.cpu_data
    have hdata : (rotate word 7 st).cpu_data =
        st.cpu_data >>> 1 ||| (if s.value.msb then signMask word else 0) := by
      change _ ||| (st.cpu_data &&& signMask word) = _
      rw [signMask_eq, BitVec.and_twoPow, ← h.value, low, BitVec.msb_eq_getLsbD_last,
        BitVec.getLsbD_setWidth, decide_eq_true (by omega : sizeBits word - 1 < sizeBits word),
        Bool.true_and]
      rfl
    obtain ⟨hnew, hstored⟩ := @shift_turned word .sar st s (rotate word 7 st) h s.value.msb
      hdata rfl _ _ hflags hbottom rfl
    exact ⟨hnew, fun _ => hstored⟩

/-- So many turns of the loop are so many places. -/
theorem rotateLoop_spec (n : Nat) (h : Holds word k st s) :
    Holds word k (rotateLoop word (fieldOf k) n st) (k.run n s) ∧
      (n ≠ 0 → isShift k = true →
        stored (rotateLoop word (fieldOf k) n st).flags = shiftFlags k (k.run n s)) := by
  induction n generalizing st s with
  | zero => exact ⟨h, fun h0 => absurd rfl h0⟩
  | succ n ih =>
    obtain ⟨hnext, hstored⟩ := rotate_spec h
    obtain ⟨hrun, hflags⟩ := @ih { rotate word (fieldOf k) st with
      cpu_src := (rotate word (fieldOf k) st).cpu_src - 1 } (k.step s)
      ⟨hnext.value, hnext.above, hnext.carry, hnext.changed⟩
    refine ⟨hrun, fun _ hk => ?_⟩
    rcases Nat.eq_zero_or_pos n with rfl | hn
    · exact hstored hk
    · exact hflags (by omega) hk

end
/-! ## The agreement -/

/-- One operation of the ALU, entered in 808x with its code in `cpu_alu_op`, gives the same value
to be written back and the same six flags in both cores. -/
def AluAgrees (kind : alu_kind) (word : Bool) (st : Cpu) : Prop :=
  let new := alu_op (sizeBits word) { st with cpu_alu_op := kind.code }
  let core := alu_binary kind (st.cpu_dest.setWidth 16) (st.cpu_src.setWidth 16) word st.flags
  sized word (new.cpu_data.setWidth 16) = core.1 ∧ stored new.flags = stored core.2

/-- One shift or rotate by one place or by the places of `CL` gives the same value to be written
back, the same carry and the same overflow, and for a shift the same six flags. -/
def ShiftAgrees (k : bit_shift.Kind) (opcode : BitVec 8) (ea : BitVec 16) (CL : BitVec 8)
    (st : Cpu) : Prop :=
  let word := isWord opcode
  let new := rot_rm opcode (fieldOf k) ea CL st
  let core := shift_rotate (fieldOf k) ea (if toReg opcode then CL else 1) word st.flags
  sized word (new.cpu_data.setWidth 16) = core.1 ∧
    (stored new.flags).c = (stored core.2).c ∧ (stored new.flags).o = (stored core.2).o ∧
    (isShift k = true → stored new.flags = stored core.2)

theorem alu_agrees (kind : alu_kind) (word : Bool) (st : Cpu) : AluAgrees kind word st := by
  unfold AluAgrees
  intro new core
  cases hkind : kindOf kind.code with
  | some k =>
    obtain ⟨hresult, hflags⟩ := alu_binary_arith word (st.cpu_dest.setWidth 16)
      (st.cpu_src.setWidth 16) st.flags kind hkind
    rw [narrow_low, narrow_low] at hresult hflags
    obtain ⟨hdata, hstored⟩ := @alu_op_spec word { st with cpu_alu_op := kind.code } k hkind
    exact ⟨by rw [sized_data, hdata]; exact hresult.symm, hstored.trans hflags.symm⟩
  | none =>
    obtain ⟨hresult, hflags⟩ := alu_binary_logic word (st.cpu_dest.setWidth 16)
      (st.cpu_src.setWidth 16) st.flags kind hkind
    have hspec : ∃ data : BitVec 16, ∃ st' : Cpu, new = bitwise (sizeBits word) data st' ∧
        narrow word data = logic kind (narrow word (st.cpu_dest.setWidth 16))
          (narrow word (st.cpu_src.setWidth 16)) := by
      cases kind <;> cases hkind
      · refine ⟨(st.cpu_dest ||| st.cpu_src).setWidth 16, _, rfl, ?_⟩
        rw [BitVec.setWidth_or]
        exact BitVec.setWidth_or
      · exact ⟨st.cpu_dest.setWidth 16 &&& st.cpu_src.setWidth 16, _, rfl, BitVec.setWidth_and⟩
      · refine ⟨(st.cpu_dest ^^^ st.cpu_src).setWidth 16, _, rfl, ?_⟩
        rw [BitVec.setWidth_xor]
        exact BitVec.setWidth_xor
    obtain ⟨data, st', hnew, hdata⟩ := hspec
    obtain ⟨hlow, hstored⟩ := bitwise_spec word data st'
    rw [hdata] at hlow hstored
    exact ⟨by rw [sized_data, hnew, hlow]; exact hresult.symm,
      (congrArg (fun c => stored c.flags) hnew).trans (hstored.trans hflags.symm)⟩

/-- What `rot_rm` starts from. -/
theorem holds_start (word : Bool) (k : bit_shift.Kind) (ea : BitVec 16) (src : BitVec 32)
    (st : Cpu) :
    Holds word k { st with cpu_data := (sized word ea).setWidth 32, cpu_src := src }
      (shiftStart word ea st.flags) := by
  have hbits := sizeBits_bounds word
  refine ⟨low_sized word ea, fun _ => ?_, rfl, rfl⟩
  change (sized word ea).setWidth 32 = (narrow word ea).setWidth 32
  rw [sized_eq]
  apply BitVec.eq_of_getLsbD_eq
  intro i hi
  simp only [narrow, BitVec.getLsbD_setWidth]
  by_cases hlow : i < sizeBits word
  · simp [show i < 16 by omega]
  · simp [hlow]

theorem shift_agrees (k : bit_shift.Kind) (opcode : BitVec 8) (ea : BitVec 16) (CL : BitVec 8)
    (st : Cpu) : ShiftAgrees k opcode ea CL st := by
  unfold ShiftAgrees
  intro word new core
  have hstart := holds_start word k ea (if toReg opcode then CL.setWidth 32 else 1) st
  have hcount : (if toReg opcode then CL.setWidth 32 else 1 : BitVec 32).toNat =
      (if toReg opcode then CL else 1 : BitVec 8).toNat := by
    cases toReg opcode
    · rfl
    · have hlt := CL.isLt
      simp only [if_true, BitVec.toNat_setWidth]
      omega
  obtain ⟨hrun, hflags⟩ := rotateLoop_spec (if toReg opcode then CL else 1 : BitVec 8).toNat hstart
  rw [← hcount] at hrun hflags
  rw [sized_data]
  by_cases h0 : (if toReg opcode then CL else 1 : BitVec 8) = 0
  · have hzero : (if toReg opcode then CL.setWidth 32 else 1 : BitVec 32).toNat = 0 := by
      rw [hcount, h0]
      rfl
    have hcore : core = (ea &&& maskOf word, st.flags) := by
      unfold core shift_rotate
      rw [h0]
      rfl
    have hnew : new = { st with
        cpu_data := (sized word ea).setWidth 32
        cpu_src := if toReg opcode then CL.setWidth 32 else 1 } := by
      change rotateLoop _ _ (BitVec.toNat _) _ = _
      rw [hzero]
      rfl
    rw [hcore, and_mask, hnew]
    exact ⟨congrArg (BitVec.setWidth 16) (low_sized word ea), rfl, rfl, fun _ => rfl⟩
  · obtain ⟨hresult, hc, ho, hshift⟩ := @shift_rotate_spec word _ k ea st.flags
      (show shiftOf (fieldOf k) = some k by cases k <;> rfl) _ h0
    rw [← hcount] at hresult hc ho hshift
    refine ⟨?_, hrun.carry.trans hc.symm, hrun.changed.trans ho.symm, fun hk => ?_⟩
    · exact (congrArg (BitVec.setWidth 16) hrun.value).trans hresult.symm
    · exact (hflags (by rw [hcount]; exact fun h => h0 (BitVec.eq_of_toNat_eq h)) hk).trans
        (hshift hk).symm

/-- Both cores compute the same in the ALU and in the shifter. -/
theorem the_cores_agree :
    (∀ kind word st, AluAgrees kind word st) ∧
      (∀ k opcode ea CL st, ShiftAgrees k opcode ea CL st) :=
  ⟨alu_agrees, shift_agrees⟩

end blumach.cpu_808x
