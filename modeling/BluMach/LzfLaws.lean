-- The laws of the LZF coding: the buffers that `lzf_decompress` takes are those that stand for
-- pieces, and it never goes outside of a buffer; what `lzf_compress` writes are such pieces.
import BluMach.Buffers
import BluMach.Decimal
import BluMach.Lzf

namespace blumach.lzf

open buffers

/-! ## Pieces -/

/-- Some octets, or as many as `n` that are copies of those that stand `back` before them. -/
inductive Piece where
  | run (xs : List (BitVec 8))
  | ref (back n : Nat)

def Piece.length : Piece → Nat
  | .run xs => xs.length
  | .ref _ n => n

/-- How far a piece refers back. -/
def Piece.back : Piece → Nat
  | .run _ => 0
  | .ref back _ => back

def Piece.Fits : Piece → Prop
  | .run xs => 1 ≤ xs.length ∧ xs.length ≤ 32
  | .ref back n => 1 ≤ back ∧ back ≤ 8192 ∧ 3 ≤ n ∧ n ≤ 264

/-- The octets that stand for a piece. -/
def Piece.octets : Piece → List (BitVec 8)
  | .run xs => BitVec.ofNat 8 (xs.length - 1) :: xs
  | .ref back n =>
    if n < 9 then
      [BitVec.ofNat 8 ((back - 1) / 256 + 32 * (n - 2)), BitVec.ofNat 8 (back - 1)]
    else [BitVec.ofNat 8 ((back - 1) / 256 + 32 * 7), BitVec.ofNat 8 (n - 9),
      BitVec.ofNat 8 (back - 1)]

/-- What a piece puts behind a word. -/
def Piece.Adds (p : Piece) (w v : List (BitVec 8)) : Prop :=
  v.length = p.length ∧
    p.back ≤ w.length ∧
    match p with
    | .run xs => v = xs
    | .ref back n => ∀ j < n, (w ++ v)[w.length + j]? = (w ++ v)[w.length + j - back]?

/-- The word of some pieces. -/
inductive Gives : List Piece → List (BitVec 8) → Prop
  | nil : Gives [] []
  | snoc {ps : List Piece} {p : Piece} {w v : List (BitVec 8)} (h : Gives ps w) (hp : p.Fits)
      (hv : p.Adds w v) : Gives (ps ++ [p]) (w ++ v)

def code (ps : List Piece) : List (BitVec 8) := ps.flatMap Piece.octets

theorem code_snoc (ps : List Piece) (p : Piece) : code (ps ++ [p]) = code ps ++ p.octets := by
  simp [code]

theorem Piece.octets_pos (p : Piece) : 0 < p.octets.length := by
  cases p with
  | run => simp [octets]
  | ref back n =>
    simp only [octets]
    split <;> simp

/-- What a piece puts behind a word is determined. -/
theorem Piece.Adds.unique {p : Piece} {w v v' : List (BitVec 8)} (hp : p.Fits) (h : p.Adds w v)
    (h' : p.Adds w v') : v = v' := by
  obtain ⟨hlen, hback, hv⟩ := h
  obtain ⟨hlen', -, hv'⟩ := h'
  cases p with
  | run xs => exact hv.trans hv'.symm
  | ref back n =>
    refine List.ext_getElem? fun j => ?_
    induction j using Nat.strongRecOn with
    | ind j ih =>
      by_cases hj : j < n
      · have hget := hv j hj
        have hget' := hv' j hj
        simp only [Piece.length, Piece.back] at hlen hlen' hback
        have hpos := hp.1
        rw [List.getElem?_append_right (Nat.le_add_right _ _),
          Nat.add_sub_cancel_left] at hget hget'
        rw [hget, hget', List.getElem?_append, List.getElem?_append]
        split
        · rfl
        · exact ih _ (by omega)
      · simp only [Piece.length] at hlen hlen'
        rw [List.getElem?_eq_none (by omega), List.getElem?_eq_none (by omega)]

/-! ## Copies -/

variable {src : Buf} {in_len out_len : Nat}

variable (src in_len out_len) in
theorem copyRun_spec (n : Nat) (s : Dec) (hin : s.ip + n ≤ in_len) (hout : s.op + n ≤ out_len) :
    ∃ out, copyRun src in_len out_len n s = some ⟨s.ip + n, s.op + n, out⟩ ∧
      Has out s.op (slice src s.ip n) ∧ SameOutside s.out out s.op (s.op + n) := by
  induction n generalizing s with
  | zero => exact ⟨s.out, rfl, .nil _ _, .refl _ _ _⟩
  | succ n ih =>
    obtain ⟨out, hrun, hhas, hsame⟩ :=
      ih ⟨s.ip + 1, s.op + 1, Function.update s.out s.op (src s.ip)⟩ (by simp; omega)
        (by simp; omega)
    refine ⟨out, ?_, ?_, ?_⟩
    · simp only [copyRun, load, store]
      rw [if_pos (by omega)]
      simp only
      rw [if_pos (by omega)]
      simp only [hrun]
      congr 2 <;> omega
    · rw [Nat.add_comm n 1, slice_add, has_append, slice_one, has_singleton]
      refine ⟨?_, hhas⟩
      rw [hsame _ (.inl (Nat.lt_succ_self _))]
      exact Function.update_self ..
    · intro j hj
      rw [hsame j (by simp only; omega)]
      exact Function.update_of_ne (by omega) _ _

theorem copyOctets_spec (n ref op : Nat) (out : Buf) (href : ref < op) (hout : op + n ≤ out_len) :
    ∃ out', copyOctets out_len n ref op out = some out' ∧
      (∀ j < n, out' (op + j) = out' (ref + j)) ∧ SameOutside out out' op (op + n) := by
  induction n generalizing ref op out with
  | zero => exact ⟨out, rfl, by simp, .refl _ _ _⟩
  | succ n ih =>
    obtain ⟨out', hrun, hcopy, hsame⟩ :=
      ih (ref + 1) (op + 1) (Function.update out op (out ref)) (by omega) (by omega)
    refine ⟨out', ?_, fun j hj => ?_, fun j hj => ?_⟩
    · simp only [copyOctets, load, store]
      rw [if_pos (by omega)]
      simp only
      rw [if_pos (by omega)]
      exact hrun
    · cases j with
      | zero =>
        rw [Nat.add_zero, Nat.add_zero, hsame op (by omega), hsame ref (by omega),
          Function.update_self, Function.update_of_ne (by omega)]
      | succ j =>
        have hnext := hcopy j (by omega)
        rwa [Nat.add_right_comm, Nat.add_right_comm ref] at hnext
    · rw [hsame j (by omega)]
      exact Function.update_of_ne (by omega) _ _

variable (out_len) in
/-- The copy at once does what the octets one by one do. -/
theorem copyRef_spec (len ref op : Nat) (out : Buf) (href : ref < op)
    (hout : op + (len + 2) ≤ out_len) :
    ∃ out', copyRef out_len len ref op out = some out' ∧
      (∀ j < len + 2, out' (op + j) = out' (ref + j)) ∧
      SameOutside out out' op (op + (len + 2)) := by
  unfold copyRef
  split
  · rename_i hlong
    unfold memcpy
    rw [if_pos (by omega)]
    refine ⟨_, rfl, fun j hj => ?_, fun j hj => ?_⟩
    · rw [if_pos (by omega), if_neg (by omega)]
      congr 1
      omega
    · exact if_neg (by omega)
  · exact copyOctets_spec _ _ _ _ href hout

/-! ## A piece is read -/

/-- The octets of a piece stand in the buffer. -/
structure At (src : Buf) (in_len ip : Nat) (p : Piece) : Prop where
  fits : p.Fits
  has : Has src ip p.octets
  inside : ip + p.octets.length ≤ in_len

/-- A piece was read. -/
structure Took (p : Piece) (s s' : Dec) : Prop where
  ip : s'.ip = s.ip + p.octets.length
  op : s'.op = s.op + p.length
  same : SameOutside s.out s'.out s.op (s.op + p.length)
  adds : match p with
    | .run xs => Has s'.out s.op xs
    | .ref back n => ∀ j < n, s'.out (s.op + j) = s'.out (s.op + j - back)

/-- What a step does at a piece: it takes it if there is room, and if it does not refer to what
is in front of the buffer. -/
def Reads (out_len : Nat) (p : Piece) (s : Dec) (r : Except Errno Dec) : Prop :=
  (s.op + p.length ≤ out_len ∧ p.back ≤ s.op ∧ ∃ s', r = .ok s' ∧ Took p s s') ∨
    (¬(s.op + p.length ≤ out_len ∧ p.back ≤ s.op) ∧ ∃ e, r = .error e)

theorem decodeStep_run {s : Dec} (hip : s.ip < in_len) (h : (src s.ip).toNat < 32) :
    decodeStep src in_len out_len s =
      decodeRun src in_len out_len (src s.ip).toNat ⟨s.ip + 1, s.op, s.out⟩ := by
  simp only [decodeStep, load, if_pos hip]
  exact if_pos h

theorem decodeStep_ref {s : Dec} (hip : s.ip < in_len) (h : ¬(src s.ip).toNat < 32) :
    decodeStep src in_len out_len s =
      decodeRef src in_len out_len (src s.ip).toNat ⟨s.ip + 1, s.op, s.out⟩ := by
  simp only [decodeStep, load, if_pos hip]
  exact if_neg h

theorem run_at {xs : List (BitVec 8)} {s : Dec} (h : At src in_len s.ip (.run xs)) :
    ∃ r, decodeStep src in_len out_len s = some r ∧ Reads out_len (.run xs) s r := by
  obtain ⟨⟨hpos, hlen⟩, hhas, hinside⟩ := h
  obtain ⟨hctrl, hxs⟩ := has_cons.mp hhas
  simp only [Piece.octets, List.length_cons] at hinside
  have hvalue : (src s.ip).toNat = xs.length - 1 := by
    rw [hctrl, BitVec.toNat_ofNat]
    omega
  have hsucc : xs.length - 1 + 1 = xs.length := by omega
  rw [decodeStep_run (by omega) (by omega), hvalue]
  unfold decodeRun Reads
  simp only [hsucc, Piece.length, Piece.back]
  by_cases hroom : s.op + xs.length > out_len
  · rw [if_pos hroom]
    exact ⟨_, rfl, .inr ⟨by omega, _, rfl⟩⟩
  · rw [if_neg hroom, if_neg (by omega)]
    obtain ⟨out, hrun, hout, hsame⟩ := copyRun_spec src in_len
      out_len xs.length ⟨s.ip + 1, s.op, s.out⟩ (by simp; omega) (by simp; omega)
    rw [hrun]
    refine ⟨_, rfl, .inl ⟨by omega, by omega, _, rfl, ?_, rfl, hsame, ?_⟩⟩
    · simp [Piece.octets]
      omega
    · rwa [← hxs.eq_slice] at hout

/-- The two numbers in the first octet of a reference. -/
theorem ctrl_div {x : Nat} : x >>> 5 = x / 32 := by
  rw [Nat.shiftRight_eq_div_pow]

theorem ctrl_mod {x : Nat} : (x &&& 0x1f) <<< 8 = x % 32 * 256 := by
  rw [Nat.and_two_pow_sub_one_eq_mod _ 5, Nat.shiftLeft_eq]

theorem ref_at {back n : Nat} {s : Dec} (h : At src in_len s.ip (.ref back n)) :
    ∃ r, decodeStep src in_len out_len s = some r ∧ Reads out_len (.ref back n) s r := by
  obtain ⟨⟨hback, hback', hn, hn'⟩, hhas, hinside⟩ := h
  -- the length, and the octet with the rest of the distance
  obtain ⟨ctrl, ip, low, hctrl, hbig, hsize, hlength, hip, hlow, hdist⟩ :
      ∃ ctrl ip low, src s.ip = ctrl ∧ 32 ≤ ctrl.toNat ∧
        ip + 1 = s.ip + (Piece.ref back n).octets.length ∧
        refLength src in_len ctrl.toNat (s.ip + 1) = some (.ok (n - 2, ip)) ∧ ip < in_len ∧
        src ip = low ∧ ctrl.toNat % 32 * 256 + 1 + low.toNat = back := by
    unfold refLength
    by_cases hshort : n < 9
    · simp only [Piece.octets, if_pos hshort, List.length_cons, List.length_nil] at hhas hinside ⊢
      obtain ⟨h₁, h₂, -⟩ := by simpa only [has_cons] using hhas
      refine ⟨_, s.ip + 1, _, h₁, ?_, by omega, ?_, by omega, h₂, ?_⟩
      · rw [BitVec.toNat_ofNat]
        omega
      · rw [if_neg (by omega), if_neg (by rw [ctrl_div, BitVec.toNat_ofNat]; omega), ctrl_div,
          BitVec.toNat_ofNat]
        congr 3
        omega
      · rw [BitVec.toNat_ofNat, BitVec.toNat_ofNat]
        omega
    · simp only [Piece.octets, if_neg hshort, List.length_cons, List.length_nil] at hhas hinside ⊢
      obtain ⟨h₁, h₂, h₃, -⟩ := by simpa only [has_cons] using hhas
      refine ⟨_, s.ip + 1 + 1, _, h₁, ?_, by omega, ?_, by omega, h₃, ?_⟩
      · rw [BitVec.toNat_ofNat]
        omega
      · rw [if_neg (by omega), if_pos (by rw [ctrl_div, BitVec.toNat_ofNat]; omega)]
        simp only [load]
        rw [if_pos (by omega)]
        simp only
        rw [if_neg (by omega), h₂, BitVec.toNat_ofNat]
        congr 3
        omega
      · rw [BitVec.toNat_ofNat, BitVec.toNat_ofNat]
        omega
  have htwo : n - 2 + 2 = n := by omega
  have hfirst := (Piece.ref back n).octets_pos
  rw [decodeStep_ref (by omega) (by rw [hctrl]; omega), hctrl]
  unfold Reads
  simp only [decodeRef, hlength, load, Piece.length, Piece.back]
  rw [if_pos hip]
  simp only [ctrl_mod, hlow, hdist, Nat.add_assoc, htwo]
  by_cases hroom : s.op + n > out_len
  · rw [if_pos hroom]
    exact ⟨_, rfl, .inr ⟨by omega, _, rfl⟩⟩
  · rw [if_neg hroom]
    by_cases hbefore : s.op < back
    · rw [if_pos hbefore]
      exact ⟨_, rfl, .inr ⟨by omega, _, rfl⟩⟩
    · rw [if_neg hbefore]
      obtain ⟨out, hrun, hcopy, hsame⟩ := copyRef_spec out_len (n - 2) (s.op - back)
        s.op s.out (by omega) (by omega)
      rw [htwo] at hcopy hsame
      rw [hrun]
      refine ⟨_, rfl, .inl ⟨by omega, by omega, _, rfl, hsize, rfl, hsame, fun j hj => ?_⟩⟩
      exact (hcopy j hj).trans (congrArg out (by omega))

variable (out_len) in
theorem decodeStep_at {p : Piece} {s : Dec} (h : At src in_len s.ip p) :
    ∃ r, decodeStep src in_len out_len s = some r ∧ Reads out_len p s r := by
  cases p with
  | run xs => exact run_at h
  | ref back n => exact ref_at h

/-! ## All pieces are read -/

/-- The pieces up to here are read. -/
structure Decoded (src dst : Buf) (out_len : Nat) (ps : List Piece) (w : List (BitVec 8))
    (s : Dec) : Prop where
  gives : Gives ps w
  code : Has src 0 (code ps)
  ip : s.ip = (lzf.code ps).length
  op : s.op = w.length
  out : Has s.out 0 w
  room : w.length ≤ out_len
  same : SameOutside dst s.out 0 out_len

variable {dst : Buf} {ps : List Piece} {w : List (BitVec 8)} {p : Piece} {s s' : Dec}

theorem Decoded.start (src dst : Buf) (out_len : Nat) :
    Decoded src dst out_len [] [] ⟨0, 0, dst⟩ :=
  ⟨.nil, .nil _ _, rfl, rfl, .nil _ _, Nat.zero_le _, .refl _ _ _⟩

/-- What was taken is what the piece puts behind the word. -/
theorem Decoded.took (h : Decoded src dst out_len ps w s) (hp : At src in_len s.ip p)
    (hroom : s.op + p.length ≤ out_len) (hback : p.back ≤ s.op) (hs' : Took p s s') :
    ∃ v, p.Adds w v ∧ Decoded src dst out_len (ps ++ [p]) (w ++ v) s' := by
  have hw : Has s'.out 0 w := h.out.keep hs'.same (.inl (by rw [h.op]; omega))
  have hv : Has s'.out 0 (w ++ slice s'.out s.op p.length) := by
    refine has_append.mpr ⟨hw, ?_⟩
    rw [Nat.zero_add, ← h.op]
    exact has_slice _ _ _
  have hadds : p.Adds w (slice s'.out s.op p.length) := by
    refine ⟨length_slice, by rw [← h.op]; exact hback, ?_⟩
    have hcase := hs'.adds
    cases p with
    | run xs => exact hcase.eq_slice.symm
    | ref back n =>
      intro j hj
      have hget := hcase j hj
      rw [hv.getElem? (by simp [Piece.length]; omega), hv.getElem? (by simp [Piece.length]; omega),
        Nat.zero_add, Nat.zero_add, ← h.op, hget]
  refine ⟨_, hadds, h.gives.snoc hp.fits hadds, ?_, ?_, ?_, hv, ?_, ?_⟩
  · rw [code_snoc, has_append, Nat.zero_add, ← h.ip]
    exact ⟨h.code, hp.has⟩
  · rw [hs'.ip, h.ip, code_snoc, List.length_append]
  · rw [hs'.op, h.op]
    simp
  · rw [List.length_append, length_slice, ← h.op]
    exact hroom
  · exact h.same.trans (hs'.same.mono (Nat.zero_le _) hroom)

/-- Where no piece stands, there is an error. -/
theorem at_or_error (s : Dec) (hip : s.ip < in_len) :
    (∃ p, At src in_len s.ip p) ∨ ∃ e, decodeStep src in_len out_len s = some (.error e) := by
  have hctrl := (src s.ip).isLt
  by_cases hsmall : (src s.ip).toNat < 32
  · by_cases hinside : s.ip + 1 + ((src s.ip).toNat + 1) ≤ in_len
    · refine .inl ⟨.run (slice src (s.ip + 1) ((src s.ip).toNat + 1)), ⟨?_, ?_⟩, ?_, ?_⟩
      · simp
      · simp
        omega
      · refine has_cons.mpr ⟨?_, has_slice _ _ _⟩
        rw [length_slice, Nat.add_sub_cancel, BitVec.ofNat_toNat, BitVec.setWidth_eq]
      · simp [Piece.octets]
        omega
    · right
      rw [decodeStep_run hip hsmall]
      unfold decodeRun
      split
      · exact ⟨_, rfl⟩
      · rw [if_pos (by simp only; omega)]
        exact ⟨_, rfl⟩
  · have hthree : ∀ x y : BitVec 8, x = y ↔ x.toNat = y.toNat := fun x y => BitVec.toNat_inj.symm
    by_cases hlong : (src s.ip).toNat / 32 = 7
    · by_cases hinside : s.ip + 1 + 1 < in_len
      · have hlow := (src (s.ip + 1 + 1)).isLt
        have hmid := (src (s.ip + 1)).isLt
        refine .inl ⟨.ref ((src s.ip).toNat % 32 * 256 + 1 + (src (s.ip + 1 + 1)).toNat)
          ((src (s.ip + 1)).toNat + 9), ⟨by omega, by omega, by omega, by omega⟩, ?_, ?_⟩
        · simp only [Piece.octets]
          rw [if_neg (by omega)]
          simp only [has_cons, hthree, BitVec.toNat_ofNat]
          exact ⟨by omega, by omega, by omega, .nil _ _⟩
        · simp only [Piece.octets]
          rw [if_neg (by omega)]
          simp
          omega
      · right
        have hcut : refLength src in_len (src s.ip).toNat (s.ip + 1) = some (.error .EINVAL) := by
          unfold refLength
          by_cases hend : s.ip + 1 ≥ in_len
          · rw [if_pos hend]
          · rw [if_neg hend, if_pos (by rw [ctrl_div]; exact hlong)]
            simp only [load]
            rw [if_pos (by omega)]
            exact if_pos (by omega)
        rw [decodeStep_ref hip hsmall]
        simp only [decodeRef, hcut]
        exact ⟨_, rfl⟩
    · by_cases hinside : s.ip + 1 < in_len
      · have hlow := (src (s.ip + 1)).isLt
        refine .inl ⟨.ref ((src s.ip).toNat % 32 * 256 + 1 + (src (s.ip + 1)).toNat)
          ((src s.ip).toNat / 32 + 2), ⟨by omega, by omega, by omega, by omega⟩, ?_, ?_⟩
        · simp only [Piece.octets]
          rw [if_pos (by omega)]
          simp only [has_cons, hthree, BitVec.toNat_ofNat]
          exact ⟨by omega, by omega, .nil _ _⟩
        · simp only [Piece.octets]
          rw [if_pos (by omega)]
          simp
          omega
      · right
        have hcut : refLength src in_len (src s.ip).toNat (s.ip + 1) = some (.error .EINVAL) :=
          if_pos (by omega)
        rw [decodeStep_ref hip hsmall]
        simp only [decodeRef, hcut]
        exact ⟨_, rfl⟩

/-- What the buffer and the result say at the end. -/
structure Ends (src dst : Buf) (in_len out_len : Nat) (out : Buf) (res : Except Errno Nat) :
    Prop where
  same : SameOutside dst out 0 out_len
  gives : ∀ n, res = .ok n →
    ∃ ps w, Gives ps w ∧ code ps = slice src 0 in_len ∧ w.length = n ∧ n ≤ out_len

/-- The loop ends, with all that was read or with an error. -/
theorem decodeLoop_ends {fuel : Nat} (h : Decoded src dst out_len ps w s) (hip : s.ip < in_len)
    (hfuel : in_len < s.ip + fuel) :
    ∃ out res, decodeLoop src in_len out_len fuel s = some (out, res) ∧
      Ends src dst in_len out_len out res := by
  induction fuel generalizing ps w s with
  | zero => omega
  | succ fuel ih =>
    have herror : ∀ e, decodeStep src in_len out_len s = some (.error e) →
        ∃ out res, decodeLoop src in_len out_len (fuel + 1) s = some (out, res) ∧
          Ends src dst in_len out_len out res := by
      intro e he
      simp only [decodeLoop, he]
      exact ⟨s.out, .error e, rfl, h.same, by simp⟩
    rcases at_or_error s hip with ⟨p, hp⟩ | ⟨e, he⟩
    · obtain ⟨r, hstep, ⟨hroom, hback, s', rfl, hs'⟩ | ⟨-, e, rfl⟩⟩ :=
        decodeStep_at out_len hp
      · obtain ⟨v, -, hnext⟩ := h.took hp hroom hback hs'
        have hmore := p.octets_pos
        have hinside := hp.inside
        simp only [decodeLoop, hstep]
        by_cases hend : s'.ip < in_len
        · rw [if_pos hend]
          exact ih hnext hend (by rw [hs'.ip]; omega)
        · rw [if_neg hend]
          have hall : (code (ps ++ [p])).length = in_len := by
            rw [← hnext.ip]
            have hip' := hs'.ip
            omega
          refine ⟨_, _, rfl, hnext.same, fun n hn => ?_⟩
          obtain rfl : s'.op = n := by simpa using hn
          refine ⟨_, _, hnext.gives, ?_, hnext.op.symm, by rw [hnext.op]; exact hnext.room⟩
          rw [← hall]
          exact hnext.code.eq_slice
      · exact herror e hstep
    · exact herror e he

/-- The rest of a run. -/
def rest (src : Buf) (in_len out_len fuel : Nat) (s : Dec) : Option (Buf × Except Errno Nat) :=
  if s.ip < in_len then decodeLoop src in_len out_len fuel s else some (s.out, .ok s.op)

variable (dst) in
/-- The loop takes all pieces that stand in the buffer. -/
theorem decodeLoop_takes (h : Gives ps w) (hcode : Has src 0 (code ps))
    (hin : (code ps).length ≤ in_len) (hroom : w.length ≤ out_len) :
    ∃ s, Decoded src dst out_len ps w s ∧
      ∀ fuel, rest src in_len out_len (fuel + ps.length) ⟨0, 0, dst⟩ =
        rest src in_len out_len fuel s := by
  induction h with
  | nil => exact ⟨_, .start src dst out_len, fun fuel => rfl⟩
  | @snoc ps p w v h hp hv ih =>
    rw [code_snoc, List.length_append] at hin
    rw [code_snoc] at hcode
    rw [List.length_append, hv.1] at hroom
    obtain ⟨hold, hhas⟩ := has_append.mp hcode
    rw [Nat.zero_add] at hhas
    obtain ⟨s, hs, hrun⟩ := ih hold (by omega) (by omega)
    have hpos := p.octets_pos
    have hat : At src in_len s.ip p := ⟨hp, by rwa [hs.ip], by rw [hs.ip]; exact hin⟩
    obtain ⟨r, hstep, hcases⟩ := decodeStep_at out_len hat
    have hfits : s.op + p.length ≤ out_len ∧ p.back ≤ s.op := by
      rw [hs.op]
      exact ⟨hroom, hv.2.1⟩
    rcases hcases with ⟨-, -, s', rfl, hs'⟩ | ⟨hnot, -⟩
    · obtain ⟨v', hv', hnext⟩ := hs.took hat hfits.1 hfits.2 hs'
      obtain rfl := hv.unique hp hv'
      refine ⟨s', hnext, fun fuel => ?_⟩
      have hip : s.ip < in_len := by
        rw [hs.ip]
        omega
      rw [List.length_append, List.length_singleton, ← Nat.add_assoc, Nat.add_right_comm, hrun]
      unfold rest
      rw [if_pos hip]
      simp only [decodeLoop, hstep]
    · exact absurd hfits hnot

theorem length_le_code (ps : List Piece) : ps.length ≤ (code ps).length := by
  induction ps with
  | nil => exact Nat.le_refl _
  | cons p ps ih =>
    have hpos := p.octets_pos
    simp only [code, List.flatMap_cons, List.length_append, List.length_cons] at ih ⊢
    omega

/-- Pieces that fill a buffer are read. -/
theorem lzf_decompress_code (hin : 0 < in_len) (h : Gives ps w)
    (hcode : code ps = slice src 0 in_len) (hroom : w.length ≤ out_len) :
    ∃ out, lzf_decompress src in_len dst out_len = some (out, .ok w.length) ∧ Has out 0 w ∧
      SameOutside dst out 0 out_len := by
  have hlen : (code ps).length = in_len := by
    rw [hcode, length_slice]
  obtain ⟨s, hs, htakes⟩ := decodeLoop_takes dst h
    (by rw [hcode]; exact has_slice _ _ _) (Nat.le_of_eq hlen) hroom
  obtain ⟨fuel, hfuel⟩ := Nat.exists_eq_add_of_le (length_le_code ps)
  have hend := htakes (fuel + 1)
  unfold rest at hend
  rw [if_pos hin, if_neg (by rw [hs.ip]; omega), show fuel + 1 + ps.length = in_len + 1 by omega,
    hs.op] at hend
  exact ⟨s.out, hend, hs.out, hs.same⟩

/-- It never goes outside of a buffer, it takes just the buffers that stand for pieces whose word
there is room for, and it writes their word. -/
theorem lzf_decompress_spec (src : Buf) (in_len : Nat) (dst : Buf) (out_len : Nat)
    (hin : 0 < in_len) :
    ∃ out res, lzf_decompress src in_len dst out_len = some (out, res) ∧
      SameOutside dst out 0 out_len ∧
      (∀ n, res = .ok n ↔
        ∃ ps w, Gives ps w ∧ code ps = slice src 0 in_len ∧ w.length = n ∧ n ≤ out_len) ∧
      ∀ ps w, Gives ps w → code ps = slice src 0 in_len → w.length ≤ out_len → Has out 0 w := by
  have hfuel : in_len < 0 + (in_len + 1) := by omega
  obtain ⟨out, res, hrun, hends⟩ := decodeLoop_ends (Decoded.start src dst out_len) hin hfuel
  -- pieces that fill the buffer decide what the run is
  have htakes : ∀ ps w, Gives ps w → code ps = slice src 0 in_len → w.length ≤ out_len →
      res = .ok w.length ∧ Has out 0 w := by
    intro ps w hgives hcode hroom
    obtain ⟨out', hrun', hhas, -⟩ := lzf_decompress_code hin hgives hcode hroom
    obtain ⟨rfl, rfl⟩ := Prod.mk.inj (Option.some.inj (hrun.symm.trans hrun'))
    exact ⟨rfl, hhas⟩
  refine ⟨out, res, hrun, hends.same, fun n => ⟨hends.gives n, ?_⟩, fun ps w hgives hcode hroom =>
    (htakes ps w hgives hcode hroom).2⟩
  rintro ⟨ps, w, hgives, hcode, rfl, hroom⟩
  exact (htakes ps w hgives hcode hroom).1

theorem lzf_decompress_spec_one : ∃ out res,
    lzf_decompress (fun i => if i = 0 then 0 else 7) 2 (fun _ => 0) 9 = some (out, res) ∧
      SameOutside (fun _ => 0) out 0 9 ∧
      (∀ n, res = .ok n ↔ ∃ ps w, Gives ps w ∧
        code ps = slice (fun i => if i = 0 then 0 else 7) 0 2 ∧ w.length = n ∧ n ≤ 9) ∧
      ∀ ps w, Gives ps w → code ps = slice (fun i => if i = 0 then 0 else 7) 0 2 →
        w.length ≤ 9 → Has out 0 w :=
  lzf_decompress_spec (fun i => if i = 0 then 0 else 7) 2 (fun _ => 0) 9 (by decide)

/-! ## Matches -/

/-- So many octets are the same. -/
def Same (src : Buf) (ref ip n : Nat) : Prop := ∀ j < n, src (ref + j) = src (ip + j)

variable {ref ip maxlen : Nat}

theorem Same.succ {n : Nat} (h : Same src ref ip n) (hn : src (ref + n) = src (ip + n)) :
    Same src ref ip (n + 1) := by
  intro j hj
  by_cases hlast : j = n
  · rw [hlast]
    exact hn
  · exact h j (by omega)

theorem unrolled_spec (n len : Nat) (h : Same src ref ip (len + 1)) :
    ∃ len' same, unrolled src ref ip n len = (len', same) ∧ len' ≤ len + n ∧
      (same = true → len' = len + n ∧ Same src ref ip (len' + 1)) ∧
      (same = false → len < len' ∧ Same src ref ip len') := by
  induction n generalizing len with
  | zero => exact ⟨len, true, rfl, Nat.le_refl _, fun _ => ⟨rfl, h⟩, by simp⟩
  | succ n ih =>
    simp only [unrolled]
    by_cases hnext : src (ref + (len + 1)) = src (ip + (len + 1))
    · rw [if_neg (by simp [hnext])]
      obtain ⟨len', same, hrun, hle, hall, hstop⟩ := ih (len + 1) (h.succ hnext)
      refine ⟨len', same, hrun, by omega, fun hs => ?_, fun hs => ?_⟩
      · obtain ⟨rfl, hsame⟩ := hall hs
        exact ⟨by omega, hsame⟩
      · obtain ⟨hlt, hsame⟩ := hstop hs
        exact ⟨by omega, hsame⟩
    · rw [if_pos hnext]
      exact ⟨len + 1, false, rfl, by omega, by simp, fun _ => ⟨Nat.lt_succ_self _, h⟩⟩

theorem extend_spec (len : Nat) (h : Same src ref ip (len + 1)) :
    len < extend src ref ip maxlen len ∧
      extend src ref ip maxlen len ≤ max maxlen (len + 1) ∧
      Same src ref ip (extend src ref ip maxlen len) := by
  induction len using extend.induct src ref ip maxlen with
  | case1 len hnext ih =>
    rw [extend, if_pos hnext]
    obtain ⟨hlt, hle, hsame⟩ := ih (h.succ hnext.2)
    exact ⟨by omega, by omega, hsame⟩
  | case2 len hnext =>
    rw [extend, if_neg hnext]
    exact ⟨Nat.lt_succ_self _, Nat.le_max_right _ _, h⟩

/-- A match has three octets or more, and it is inside of the data. -/
theorem matchLength_spec (h : Same src ref ip 3) (hip : ip + 2 < in_len) :
    3 ≤ matchLength src in_len ref ip ∧ matchLength src in_len ref ip ≤ 264 ∧
      ip + matchLength src in_len ref ip ≤ in_len ∧
      Same src ref ip (matchLength src in_len ref ip) := by
  have hmax : MAX_REF = 264 := rfl
  unfold matchLength
  generalize hm : (if in_len - ip - 2 > MAX_REF then MAX_REF else in_len - ip - 2) = maxlen
  have hle : maxlen ≤ 264 ∧ maxlen ≤ in_len - ip - 2 := by
    split at hm <;> omega
  simp only
  by_cases hlong : maxlen > 16
  · rw [if_pos hlong]
    obtain ⟨len, same, hrun, hlen, hall, hstop⟩ := unrolled_spec 16 2 h
    rw [hrun]
    cases same with
    | true =>
      obtain ⟨rfl, hsame⟩ := hall rfl
      obtain ⟨hlt, hext, hmatch⟩ := extend_spec (2 + 16) hsame
      simp only [if_true]
      exact ⟨by omega, by omega, by omega, hmatch⟩
    | false =>
      obtain ⟨hlt, hsame⟩ := hstop rfl
      exact ⟨by simp; omega, by simp; omega, by simp; omega, by simpa using hsame⟩
  · rw [if_neg hlong]
    obtain ⟨hlt, hext, hmatch⟩ := extend_spec 2 h
    exact ⟨by omega, by omega, by omega, hmatch⟩

/-! ## The writer -/

@[simp] theorem put_op (s : Enc) (x : BitVec 8) : (s.put x).op = s.op + 1 := rfl

@[simp] theorem put_out (s : Enc) (x : BitVec 8) :
    (s.put x).out = Function.update s.out s.op x := rfl

@[simp] theorem stopRun_op (s : Enc) : s.stopRun.op = s.op := rfl

@[simp] theorem stopRun_lit (s : Enc) : s.stopRun.lit = s.lit := rfl

@[simp] theorem stopRun_ip (s : Enc) : s.stopRun.ip = s.ip := rfl

@[simp] theorem take_ip (s : Enc) : (s.take src).ip = s.ip + 1 := rfl

@[simp] theorem take_op (s : Enc) : (s.take src).op = s.op + 1 := rfl

@[simp] theorem take_lit (s : Enc) : (s.take src).lit = s.lit + 1 := rfl

@[simp] theorem take_out (s : Enc) :
    (s.take src).out = Function.update s.out s.op (src s.ip) := rfl

/-- The octets up to here stand for pieces and for the run that is open. -/
structure Encodes (src : Buf) (in_len : Nat) (dst : Buf) (out_len : Nat) (ps : List Piece)
    (s : Enc) : Prop where
  gives : Gives ps (slice src 0 (s.ip - s.lit))
  op : s.op = (lzf.code ps).length + 1 + s.lit
  lit_lt : s.lit < 32
  lit_le : s.lit ≤ s.ip
  ip_le : s.ip ≤ in_len
  code : Has s.out 0 (lzf.code ps)
  run : Has s.out ((lzf.code ps).length + 1) (slice src (s.ip - s.lit) s.lit)
  room : s.op ≤ out_len + 1
  ratio : 32 * (lzf.code ps).length ≤ 33 * (s.ip - s.lit)
  same : SameOutside dst s.out 0 out_len

variable {e : Enc}

/-- The pieces with the run that is open, if it is not empty. -/
def stopped (src : Buf) (ps : List Piece) (s : Enc) : List Piece :=
  if s.lit = 0 then ps else ps ++ [.run (slice src (s.ip - s.lit) s.lit)]

variable (src) in
theorem length_code_stopped (ps : List Piece) (s : Enc) :
    (code (stopped src ps s)).length =
      (code ps).length + if s.lit = 0 then 0 else s.lit + 1 := by
  unfold stopped
  split
  · rfl
  · rw [code_snoc, List.length_append]
    simp [Piece.octets]

/-- The end of a run that was just made longer: it may now be full. -/
theorem stopRun_spec {n : Nat} (hgives : Gives ps (slice src 0 (e.ip - e.lit))) (hlit : e.lit ≤ 32)
    (hle : e.lit ≤ e.ip) (hop : e.op = (code ps).length + 1 + e.lit) (hcode : Has e.out 0 (code ps))
    (hrun : Has e.out ((code ps).length + 1) (slice src (e.ip - e.lit) e.lit))
    (hroom : (code ps).length < n) :
    Gives (stopped src ps e) (slice src 0 e.ip) ∧ Has e.stopRun.out 0 (code (stopped src ps e)) ∧
      SameOutside e.out e.stopRun.out 0 n := by
  have hplace : e.op - e.lit - 1 = (code ps).length := by omega
  have hsame : SameOutside e.out e.stopRun.out 0 n := by
    simp only [Enc.stopRun, hplace]
    exact (SameOutside.refl _ _ _).update (Nat.zero_le _) hroom _
  have hcode' : Has e.stopRun.out 0 (code ps) := by
    simp only [Enc.stopRun, hplace]
    exact hcode.update (.inr (by simp)) _
  refine ⟨?_, ?_, hsame⟩
  · unfold stopped
    split
    · rename_i hempty
      rwa [hempty, Nat.sub_zero] at hgives
    · rename_i hsome
      have hsplit : e.ip = (e.ip - e.lit) + e.lit := by omega
      have hword : slice src 0 e.ip =
          slice src 0 (e.ip - e.lit) ++ slice src (e.ip - e.lit) e.lit := by
        conv => lhs; rw [hsplit]
        rw [slice_add, Nat.zero_add]
      rw [hword]
      refine hgives.snoc ⟨by simp; omega, by simpa using hlit⟩ ⟨by simp [Piece.length], ?_, rfl⟩
      exact Nat.zero_le _
  · unfold stopped
    split
    · exact hcode'
    · rename_i hsome
      have hnumber : BitVec.ofNat 8 e.lit - 1#8 = BitVec.ofNat 8 (e.lit - 1) := by
        apply BitVec.eq_of_toNat_eq
        rw [BitVec.toNat_sub, BitVec.toNat_ofNat, BitVec.toNat_ofNat, BitVec.toNat_ofNat]
        omega
      rw [code_snoc, has_append]
      refine ⟨hcode', has_cons.mpr ⟨?_, ?_⟩⟩
      · simp only [Enc.stopRun, hplace, Nat.zero_add, Function.update_self, length_slice]
        exact hnumber
      · simp only [Enc.stopRun, hplace, Nat.zero_add]
        exact hrun.update (.inl (Nat.lt_succ_self _)) _

theorem max_lit_iff (s : Enc) : (s.take src).lit = MAX_LIT ↔ s.lit = 31 := by
  have hmax : MAX_LIT = 32 := rfl
  rw [take_lit, hmax]
  omega

variable (src) in
theorem literal_ip (s : Enc) : (literal src s).ip = s.ip + 1 := by
  unfold literal
  split <;> rfl

variable (src) in
theorem literal_lit (s : Enc) : (literal src s).lit = if s.lit = 31 then 0 else s.lit + 1 := by
  unfold literal
  simp only [max_lit_iff]
  split <;> rfl

variable (src) in
theorem literal_op (s : Enc) : (literal src s).op = s.op + 1 + if s.lit = 31 then 1 else 0 := by
  unfold literal
  simp only [max_lit_iff]
  split <;> rfl

/-- One octet more. -/
theorem literal_spec (h : Encodes src in_len dst out_len ps e) (hip : e.ip < in_len)
    (hop : e.op < out_len) :
    ∃ ps', Encodes src in_len dst out_len ps' (literal src e) := by
  have hlt := h.lit_lt
  have hle := h.lit_le
  have hopen := h.op
  have hratio := h.ratio
  -- the state with the octet in the run
  have hback : (e.take src).ip - (e.take src).lit = e.ip - e.lit := by
    simp only [take_ip, take_lit]
    omega
  have hplace : e.op = (code ps).length + 1 + (slice src (e.ip - e.lit) e.lit).length := by
    rw [length_slice]
    exact hopen
  have hgives : Gives ps (slice src 0 ((e.take src).ip - (e.take src).lit)) := by
    rw [hback]
    exact h.gives
  have hcode : Has (e.take src).out 0 (code ps) := h.code.update (.inr (by omega)) _
  have hrun : Has (e.take src).out ((code ps).length + 1)
      (slice src ((e.take src).ip - (e.take src).lit) (e.take src).lit) := by
    rw [hback, take_lit, slice_add, slice_one, Nat.sub_add_cancel hle, take_out, hplace]
    exact h.run.snoc _
  have hsame : SameOutside dst (e.take src).out 0 out_len := h.same.update (Nat.zero_le _) hop _
  unfold literal
  by_cases hfull : e.lit = 31
  · -- the run is full
    rw [if_pos ((max_lit_iff e).mpr hfull)]
    obtain ⟨hgives', hcode', hsame'⟩ := stopRun_spec (n := out_len) hgives (by simp; omega)
      (by simp; omega) (by simp; omega) hcode hrun (by omega)
    have hlen := length_code_stopped src ps (e.take src)
    rw [take_lit, if_neg (Nat.succ_ne_zero _)] at hlen
    refine ⟨stopped src ps (e.take src), hgives', ?_, by simp [Enc.startRun], Nat.zero_le _, hip,
      hcode', .nil _ _, ?_, ?_, hsame.trans hsame'⟩
    · simp only [Enc.startRun, stopRun_op, take_op, hlen]
      omega
    · simp only [Enc.startRun, stopRun_op, take_op]
      omega
    · simp only [Enc.startRun, stopRun_ip, take_ip, hlen]
      omega
  · rw [if_neg (mt (max_lit_iff e).mp hfull)]
    refine ⟨ps, hgives, ?_, ?_, ?_, hip, hcode, hrun, ?_, ?_, hsame⟩
    · rw [take_op, take_lit]
      omega
    · rw [take_lit]
      omega
    · rw [take_lit, take_ip]
      omega
    · rw [take_op]
      omega
    · rw [hback]
      exact hratio

/-! ## References -/

/-- The store of a reference. -/
theorem putRef_spec {off n : Nat} (hn : 3 ≤ n) (hn' : n ≤ 264)
    (hcode : Has e.out 0 (code ps)) (hop : e.op = (code ps).length) :
    Has (putRef off (n - 2) e).out 0 (code (ps ++ [.ref (off + 1) n])) ∧
      (putRef off (n - 2) e).op = (code (ps ++ [.ref (off + 1) n])).length ∧
      (putRef off (n - 2) e).op ≤ e.op + 3 ∧
      SameOutside e.out (putRef off (n - 2) e).out e.op (e.op + 3) := by
  have hsnoc : ∀ (s : Enc) (xs : List (BitVec 8)) (x : BitVec 8), Has s.out 0 xs →
      s.op = xs.length → Has (s.put x).out 0 (xs ++ [x]) ∧ (s.put x).op = (xs ++ [x]).length := by
    intro s xs x hxs hs
    refine ⟨?_, by simp [hs]⟩
    have hnext := hxs.snoc x
    rwa [Nat.zero_add, ← hs] at hnext
  have hdiv : off >>> 8 = off / 256 := Nat.shiftRight_eq_div_pow _ _
  rw [code_snoc]
  unfold putRef
  simp only [Piece.octets, Nat.add_sub_cancel, hdiv, Nat.shiftLeft_eq]
  by_cases hshort : n < 9
  · rw [if_pos (by omega), if_pos hshort]
    obtain ⟨h₁, hop₁⟩ := hsnoc e _ (BitVec.ofNat 8 (off / 256 + (n - 2) * 2 ^ 5)) hcode hop
    obtain ⟨h₂, hop₂⟩ := hsnoc _ _ (BitVec.ofNat 8 off) h₁ hop₁
    have hctrl : (n - 2) * 2 ^ 5 = 32 * (n - 2) := Nat.mul_comm _ _
    rw [hctrl] at h₂ hop₂ ⊢
    refine ⟨by simpa using h₂, by simpa using hop₂, by simp, ?_⟩
    exact ((SameOutside.refl _ _ _).update (Nat.le_refl _) (by omega) _).update (by simp)
      (by simp) _
  · rw [if_neg (by omega), if_neg hshort]
    obtain ⟨h₁, hop₁⟩ := hsnoc e _ (BitVec.ofNat 8 (off / 256 + 7 * 2 ^ 5)) hcode hop
    obtain ⟨h₂, hop₂⟩ := hsnoc _ _ (BitVec.ofNat 8 (n - 2 - 7)) h₁ hop₁
    obtain ⟨h₃, hop₃⟩ := hsnoc _ _ (BitVec.ofNat 8 off) h₂ hop₂
    have hrest : n - 2 - 7 = n - 9 := by omega
    rw [hrest] at h₃ hop₃ ⊢
    refine ⟨by simpa using h₃, by simpa using hop₃, by simp, ?_⟩
    exact (((SameOutside.refl _ _ _).update (Nat.le_refl _) (by omega) _).update (by simp)
      (by simp) _).update (by simp; omega) (by simp) _

/-- The hash table has no part in what was written. -/
theorem Encodes.of_eq {e' : Enc} (h : Encodes src in_len dst out_len ps e) (hip : e'.ip = e.ip)
    (hop : e'.op = e.op) (hlit : e'.lit = e.lit) (hout : e'.out = e.out) :
    Encodes src in_len dst out_len ps e' := by
  obtain ⟨h₁, h₂, h₃, h₄, h₅, h₆, h₇, h₈, h₉, h₁₀⟩ := h
  constructor <;> rw [hip] at * <;> rw [hop] at * <;> rw [hlit] at * <;> rw [hout] at * <;>
    assumption

theorem rehash_ip {s : Enc} (hip : 0 < s.ip) : (rehash src in_len s).ip = s.ip := by
  unfold rehash
  split
  · rfl
  · exact Nat.sub_add_cancel hip

theorem rehash_spec {ps : List Piece} (hip : 0 < e.ip) (h : Encodes src in_len dst out_len ps e) :
    Encodes src in_len dst out_len ps (rehash src in_len e) := by
  refine h.of_eq (rehash_ip hip) ?_ ?_ ?_ <;> unfold rehash <;> split <;> rfl

theorem Matches.same {ref ip : Nat} (h : Matches src ref ip) : Same src ref ip 3 := by
  obtain ⟨-, -, -, h₂, h₀, h₁⟩ := h
  exact ((Same.succ (n := 0) (by intro j hj; omega) h₀).succ h₁).succ h₂

/-- A match as a piece. -/
theorem gives_ref {ps : List Piece} {ref ip n : Nat} (h : Gives ps (slice src 0 ip))
    (href : ref < ip) (hoff : ip - ref ≤ 8192) (hn : 3 ≤ n) (hn' : n ≤ 264)
    (hsame : Same src ref ip n) :
    Gives (ps ++ [.ref (ip - ref) n]) (slice src 0 (ip + n)) := by
  rw [slice_add, Nat.zero_add]
  refine h.snoc ⟨by omega, hoff, hn, hn'⟩ ⟨length_slice, by simp [Piece.back], fun j hj => ?_⟩
  have hword : slice src 0 ip ++ slice src ip n = slice src 0 (ip + n) := by
    rw [slice_add, Nat.zero_add]
  have hhas := has_slice src 0 (ip + n)
  rw [hword, hhas.getElem? (by simp; omega), hhas.getElem? (by simp; omega), length_slice,
    Nat.zero_add, Nat.zero_add, ← hsame j hj]
  congr 2
  omega

/-- A match is written, with the run in front of it. -/
theorem writeMatch_spec {ref : Nat} (h : Encodes src in_len dst out_len ps e)
    (hip : e.ip + 2 < in_len) (hm : Matches src ref e.ip) (hroom : e.op - e.unused + 4 < out_len) :
    ∃ ps', Encodes src in_len dst out_len ps' (writeMatch src in_len ref e) ∧
      e.ip < (writeMatch src in_len ref e).ip := by
  obtain ⟨hlen, hlen', hinside, hsame⟩ := matchLength_spec hm.same hip
  obtain ⟨href, hoff, -⟩ := hm
  have hmax : MAX_OFF = 8192 := rfl
  have hopen := h.op
  have hratio := h.ratio
  have hle := h.lit_le
  have hlt := h.lit_lt
  unfold writeMatch
  unfold Enc.unused at hroom ⊢
  generalize matchLength src in_len ref e.ip = n at *
  obtain ⟨hgives, hcode, hsame'⟩ := stopRun_spec (n := out_len) h.gives (by omega) hle hopen h.code
    h.run (by split at hroom <;> omega)
  have hlength := length_code_stopped src ps e
  have hplace : e.op - (if e.lit = 0 then 1 else 0) = (code (stopped src ps e)).length := by
    rw [hlength]
    split <;> omega
  rw [hplace] at hroom ⊢
  obtain ⟨hcode', hop', hthree, hkeep⟩ := putRef_spec (n := n)
    (e := { e.stopRun with op := (code (stopped src ps e)).length }) hlen hlen' hcode rfl
  rw [show e.ip - ref - 1 + 1 = e.ip - ref by omega] at hcode' hop'
  have hword := gives_ref hgives href (by omega) hlen hlen' hsame
  have hdone : Encodes src in_len dst out_len (stopped src ps e ++ [.ref (e.ip - ref) n])
      { (putRef (e.ip - ref - 1) (n - 2)
          { e.stopRun with op := (code (stopped src ps e)).length }).startRun with
        ip := e.ip + n } := by
    simp only at hthree hkeep
    refine ⟨hword, ?_, by simp [Enc.startRun], Nat.zero_le _, hinside, hcode', .nil _ _, ?_, ?_,
      (h.same.trans hsame').trans (hkeep.mono (Nat.zero_le _) (by omega))⟩
    · simp only [Enc.startRun, hop']
    · simp only [Enc.startRun]
      omega
    · simp only [Enc.startRun, Nat.sub_zero]
      rw [code_snoc, List.length_append, hlength]
      simp only [Piece.octets]
      split <;> split <;> simp only [List.length_cons, List.length_nil] <;> omega
  have hpos : 0 < e.ip + n := by omega
  refine ⟨_, rehash_spec hpos hdone, ?_⟩
  simp only
  rw [rehash_ip hpos]
  exact Nat.lt_add_of_pos_right (by omega)

/-! ## All octets are written -/

theorem Encodes.look (h : Encodes src in_len dst out_len ps e) :
    Encodes src in_len dst out_len ps (e.look src) :=
  h.of_eq rfl rfl rfl rfl

theorem encodeStep_spec {e' : Enc} (h : Encodes src in_len dst out_len ps e)
    (hip : e.ip + 2 < in_len) (hrun : encodeStep src in_len out_len e = some e') :
    ∃ ps', Encodes src in_len dst out_len ps' e' ∧ e.ip < e'.ip := by
  unfold encodeStep at hrun
  simp only at hrun
  split at hrun
  · rename_i hm
    unfold reference at hrun
    split at hrun
    · simp at hrun
    · rename_i hroom
      obtain rfl := Option.some.inj hrun
      exact writeMatch_spec h.look hip hm (by omega)
  · split at hrun
    · simp at hrun
    · rename_i hroom
      obtain rfl := Option.some.inj hrun
      obtain ⟨ps', hdone⟩ := literal_spec h.look (Nat.lt_of_add_right_lt hip)
        (Nat.lt_of_not_le hroom)
      refine ⟨ps', hdone, ?_⟩
      rw [literal_ip]
      exact Nat.lt_succ_self _

/-- What was written is at most a thirty-second longer than what was read. -/
theorem Encodes.op_le (h : Encodes src in_len dst out_len ps e) : e.op ≤ e.ip + e.ip / 32 + 1 := by
  have hop := h.op
  have hratio := h.ratio
  have hle := h.lit_le
  omega

/-- A step without room. -/
theorem encodeStep_room (h : Encodes src in_len dst out_len ps e) (hip : e.ip + 2 < in_len)
    (hrun : encodeStep src in_len out_len e = none) : out_len < in_len + in_len / 32 + 4 := by
  have hop : (e.look src).op ≤ e.ip + e.ip / 32 + 1 := h.op_le
  unfold encodeStep reference at hrun
  simp only at hrun
  split at hrun
  · split at hrun
    · omega
    · simp at hrun
  · split at hrun
    · rename_i hroom
      have hfull : (e.look src).op ≥ out_len := hroom
      omega
    · simp at hrun

/-- The loop ends close to the end of the data, or there is no room. -/
theorem encodeLoop_spec {fuel : Nat} (h : Encodes src in_len dst out_len ps e)
    (hfuel : in_len < e.ip + fuel) :
    ∃ e' ok ps', encodeLoop src in_len out_len fuel e = some (e', ok) ∧
      Encodes src in_len dst out_len ps' e' ∧ (ok = true → in_len ≤ e'.ip + 2) ∧
      (ok = false → out_len < in_len + in_len / 32 + 4) := by
  induction fuel generalizing ps e with
  | zero =>
    have hle := h.ip_le
    omega
  | succ fuel ih =>
    simp only [encodeLoop]
    by_cases hip : e.ip + 2 < in_len
    · rw [if_pos hip]
      cases hstep : encodeStep src in_len out_len e with
      | none => exact ⟨e, false, ps, rfl, h, by simp, fun _ => encodeStep_room h hip hstep⟩
      | some e' =>
        obtain ⟨ps', hnext, hlt⟩ := encodeStep_spec h hip hstep
        exact ih hnext (by omega)
    · rw [if_neg hip]
      exact ⟨e, true, ps, rfl, h, fun _ => by omega, by simp⟩

/-- The last octets. -/
theorem literals_spec (h : Encodes src in_len dst out_len ps e) (hip : in_len ≤ e.ip + 2)
    (hroom : e.op + 3 ≤ out_len) :
    ∃ ps', Encodes src in_len dst out_len ps' (literals src (in_len - e.ip) e) ∧
      (literals src (in_len - e.ip) e).ip = in_len ∧
      (literals src (in_len - e.ip) e).op ≤ out_len := by
  have hle := h.ip_le
  obtain hn | hn | hn : in_len - e.ip = 0 ∨ in_len - e.ip = 1 ∨ in_len - e.ip = 2 := by omega
  · rw [hn]
    exact ⟨ps, h, by simp only [literals]; omega, by simp only [literals]; omega⟩
  · rw [hn]
    obtain ⟨ps', hnext⟩ := literal_spec h (by omega) (by omega)
    have hip' := literal_ip src e
    have hop' := literal_op src e
    simp only [literals]
    exact ⟨ps', hnext, by omega, by split at hop' <;> omega⟩
  · rw [hn]
    obtain ⟨ps', hnext⟩ := literal_spec h (by omega) (by omega)
    have hip' := literal_ip src e
    have hop' := literal_op src e
    have hlit' := literal_lit src e
    obtain ⟨ps'', hlast⟩ := literal_spec hnext (by omega) (by split at hop' <;> omega)
    have hip'' := literal_ip src (literal src e)
    have hop'' := literal_op src (literal src e)
    simp only [literals]
    refine ⟨ps'', hlast, by omega, ?_⟩
    -- at most one of the two fills a run
    by_cases hfull : e.lit = 31
    · rw [if_pos hfull] at hop' hlit'
      rw [if_neg (by omega)] at hop''
      omega
    · rw [if_neg hfull] at hop'
      split at hop'' <;> omega

theorem Encodes.start (src : Buf) (in_len : Nat) (dst : Buf) (out_len : Nat) (hval : BitVec 32)
    (htab : BitVec 32 → Nat) :
    Encodes src in_len dst out_len [] ⟨0, 1, 0, hval, htab, dst⟩ :=
  ⟨.nil, rfl, by simp, Nat.le_refl _, Nat.zero_le _, .nil _ _, .nil _ _, by simp, Nat.le_refl _,
    .refl _ _ _⟩

/-- The result is zero, for want of room, or the buffer has the pieces of all octets. -/
structure Compressed (src : Buf) (in_len : Nat) (dst : Buf) (out_len : Nat) (out : Buf) (n : Nat) :
    Prop where
  same : SameOutside dst out 0 out_len
  room : n = 0 → in_len = 0 ∨ out_len < in_len + in_len / 32 + 4
  size : n ≤ out_len ∧ n ≤ in_len + in_len / 32 + 1
  gives : n ≠ 0 → ∃ ps, Gives ps (slice src 0 in_len) ∧ code ps = slice out 0 n

theorem compressed_zero {out : Buf} (hsame : SameOutside dst out 0 out_len)
    (h : in_len = 0 ∨ out_len < in_len + in_len / 32 + 4) :
    Compressed src in_len dst out_len out 0 :=
  ⟨hsame, fun _ => h, ⟨Nat.zero_le _, Nat.zero_le _⟩, fun h => absurd rfl h⟩

theorem Gives.ne_nil (h : Gives ps w) (hw : w ≠ []) : 0 < (code ps).length := by
  cases h with
  | nil => exact absurd rfl hw
  | snoc =>
    rw [code_snoc, List.length_append]
    exact Nat.add_pos_right _ (Piece.octets_pos _)

theorem lzf_compress_spec (src : Buf) (in_len : Nat) (dst : Buf) (out_len : Nat) :
    ∃ out n, lzf_compress src in_len dst out_len = some (out, n) ∧
      Compressed src in_len dst out_len out n := by
  unfold lzf_compress
  by_cases hempty : in_len = 0 ∨ out_len = 0
  · rw [if_pos hempty]
    exact ⟨dst, 0, rfl, compressed_zero (.refl _ _ _) (by omega)⟩
  · rw [if_neg hempty]
    have hfuel : in_len < 0 + (in_len + 1) := by omega
    obtain ⟨e, ok, ps, hrun, h, hnear, hroom⟩ := encodeLoop_spec
      (Encodes.start src in_len dst out_len (FRST src 0) fun _ => 0) hfuel
    simp only [hrun]
    cases ok with
    | false => exact ⟨e.out, 0, rfl, compressed_zero h.same (.inr (hroom rfl))⟩
    | true =>
      have hop := h.op_le
      have hle := h.ip_le
      simp only
      by_cases hfull : e.op + 3 > out_len
      · rw [if_pos hfull]
        exact ⟨e.out, 0, rfl, compressed_zero h.same (by omega)⟩
      · rw [if_neg hfull]
        obtain ⟨ps', hlast, hall, hsmall⟩ := literals_spec h (hnear rfl) (by omega)
        generalize literals src (in_len - e.ip) e = s at hlast hall hsmall
        have hopen := hlast.op
        have hlit := hlast.lit_lt
        obtain ⟨hgives, hcode, hsame⟩ := stopRun_spec (n := out_len) hlast.gives (by omega)
          hlast.lit_le hlast.op hlast.code hlast.run (by omega)
        have hlength := length_code_stopped src ps' s
        have hsize : s.op - s.stopRun.unused = (code (stopped src ps' s)).length := by
          rw [hlength]
          unfold Enc.unused
          rw [stopRun_lit]
          split <;> omega
        have hword : slice src 0 s.ip ≠ [] := by
          intro hnil
          have hzero := congrArg List.length hnil
          rw [length_slice, List.length_nil] at hzero
          omega
        have hpos := hgives.ne_nil hword
        have hbound := hlast.op_le
        rw [hall] at hgives hbound
        rw [stopRun_op, hsize]
        refine ⟨_, _, rfl, hlast.same.trans hsame, by omega, by omega, fun _ => ?_⟩
        exact ⟨_, hgives, hcode.eq_slice⟩

/-- What is written is read back, and it stays inside of the buffers. -/
theorem lzf_decompress_lzf_compress (src : Buf) (in_len : Nat) (dst : Buf) (out_len : Nat) :
    ∃ out n, lzf_compress src in_len dst out_len = some (out, n) ∧ n ≤ out_len ∧
      SameOutside dst out 0 out_len ∧
      (n ≠ 0 → ∀ dst' m, in_len ≤ m → ∃ out', lzf_decompress out n dst' m =
        some (out', .ok in_len) ∧ Has out' 0 (slice src 0 in_len) ∧ SameOutside dst' out' 0 m) := by
  obtain ⟨out, n, hrun, h⟩ := lzf_compress_spec src in_len dst out_len
  refine ⟨out, n, hrun, h.size.1, h.same, fun hn dst' m hm => ?_⟩
  obtain ⟨ps, hgives, hcode⟩ := h.gives hn
  have hroom : (slice src 0 in_len).length ≤ m := by rwa [length_slice]
  obtain ⟨out', hread, hhas, hsame⟩ :=
    lzf_decompress_code (Nat.pos_of_ne_zero hn) hgives hcode hroom
  rw [length_slice] at hread
  exact ⟨out', hread, hhas, hsame⟩

/-- The result is at most a thirty-second longer than the input, and one octet. There is always
room in a buffer that is longer by a thirty-second and four octets. -/
theorem lzf_compress_fits (src : Buf) (in_len : Nat) (dst : Buf) (out_len : Nat) :
    ∃ out n, lzf_compress src in_len dst out_len = some (out, n) ∧
      n ≤ in_len + in_len / 32 + 1 ∧
      (0 < in_len → in_len + in_len / 32 + 4 ≤ out_len → 0 < n) := by
  obtain ⟨out, n, hrun, h⟩ := lzf_compress_spec src in_len dst out_len
  refine ⟨out, n, hrun, h.size.2, fun hin hout => Nat.pos_of_ne_zero fun hn => ?_⟩
  have hfew := h.room hn
  omega

theorem lzf_compress_fits_nine : ∃ out n,
    lzf_compress (fun _ => 7) 9 (fun _ => 0) 13 = some (out, n) ∧ n ≤ 9 + 9 / 32 + 1 ∧ 0 < n :=
  have ⟨out, n, hrun, hsize, hroom⟩ := lzf_compress_fits (fun _ => 7) 9 (fun _ => 0) 13
  ⟨out, n, hrun, hsize, hroom (by decide) (by decide)⟩

end blumach.lzf
