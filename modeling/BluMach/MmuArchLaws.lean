-- The walk of `mem/mem.c` is the one of the architecture: it looks at the same entries, denies
-- the same accesses, and leaves the same bits in the entries that it used.
import BluMach.MmuArch
import BluMach.MmuLaws

namespace blumach.mmu

open bit_fields

/-! ## Entries -/

section

variable {s : MmuState}

theorem rammapIndex_eq (x : BitVec 32) : rammapIndex x s = cell s x.toNat := by
  have hpage : ((x.setWidth 64 : BitVec 64) >>> 12).toNat = x.toNat / 2 ^ 12 := by
    have hlt := x.isLt
    rw [BitVec.toNat_ushiftRight, BitVec.toNat_setWidth, Nat.shiftRight_eq_div_pow,
      Nat.mod_eq_of_lt (by omega)]
  have hword : ((x >>> 2) &&& 0x3ff).toNat = x.toNat % 2 ^ 12 / 4 := by
    rw [toNat_and_mask (by decide : IsMask 0 10 (0x3ff : BitVec 32)), BitVec.toNat_ushiftRight,
      Nat.shiftRight_eq_div_pow]
    omega
  unfold rammapIndex rammap_backing cell
  rw [hpage, hword]

theorem rammap_eq (x : BitVec 32) : rammap x s = entry32 s x.toNat := by
  unfold rammap entry32
  rw [rammapIndex_eq]

/-- The entries of PAE stand at multiples of 8. -/
theorem rammap64Index_eq {x : BitVec 64} (h : x.toNat % 8 = 0) :
    rammap64Index x s = cell s x.toNat := by
  have hpage : (x >>> 12).toNat = x.toNat / 2 ^ 12 := by
    rw [BitVec.toNat_ushiftRight, Nat.shiftRight_eq_div_pow]
  have hword : 2 * ((x >>> 3) &&& 0x1ff).toNat = x.toNat % 2 ^ 12 / 4 := by
    rw [toNat_and_mask (by decide : IsMask 0 9 (0x1ff : BitVec 64)), BitVec.toNat_ushiftRight,
      Nat.shiftRight_eq_div_pow]
    omega
  unfold rammap64Index rammap_backing cell
  rw [hpage, hword]

theorem rammap64_eq {x : BitVec 64} (h : x.toNat % 8 = 0) :
    rammap64 x s = entry64 s x.toNat := by
  unfold rammap64 entry64
  rw [rammap64Index_eq h]

end

/-! ## Flags -/

section

variable {w : Nat} {e : BitVec w}

theorem flag_iff {m : BitVec w} {k : Nat} (hk : k < w) (hm : m = BitVec.twoPow w k) :
    e &&& m = 0#w ↔ e.getLsbD k = false := by
  rw [hm]
  exact and_bit e hk

end

theorem present32 (e : BitVec 32) : e &&& 1 = 0 ↔ present e = false :=
  flag_iff (by omega) (by decide)

theorem writable32 (e : BitVec 32) : e &&& 2 = 0 ↔ writable e = false :=
  flag_iff (by omega) (by decide)

theorem user32 (e : BitVec 32) : e &&& 4 = 0 ↔ userPage e = false :=
  flag_iff (by omega) (by decide)

theorem large32 (e : BitVec 32) : e &&& 0x80 ≠ 0 ↔ large e = true := by
  rw [ne_eq, show e &&& 0x80 = 0 ↔ large e = false from flag_iff (by omega) (by decide)]
  exact Bool.not_eq_false _ ▸ Iff.rfl

/-- What the walker of PAE takes from an entry. -/
def low40 (e : BitVec 64) : BitVec 64 := e &&& 0x000000ffffffffff

theorem low40_bit (e : BitVec 64) {k : Nat} (hk : k < 40) : (low40 e).getLsbD k = e.getLsbD k := by
  have hmask : IsMask 0 40 (0x000000ffffffffff : BitVec 64) := by decide
  unfold low40
  rw [BitVec.getLsbD_and, hmask k (by omega)]
  simp [hk]

theorem low40_toNat (e : BitVec 64) : (low40 e).toNat = e.toNat % 2 ^ 40 := by
  unfold low40
  rw [toNat_and_mask (by decide : IsMask 0 40 (0x000000ffffffffff : BitVec 64))]
  omega

theorem present64 (e : BitVec 64) : low40 e &&& 1 = 0 ↔ present e = false := by
  rw [show low40 e &&& 1 = 0 ↔ (low40 e).getLsbD 0 = false from flag_iff (by omega) (by decide),
    low40_bit e (by omega)]
  rfl

theorem large64 (e : BitVec 64) : low40 e &&& 0x80 ≠ 0 ↔ large e = true := by
  rw [ne_eq, show low40 e &&& 0x80 = 0 ↔ (low40 e).getLsbD 7 = false from
    flag_iff (by omega) (by decide), low40_bit e (by omega)]
  exact Bool.not_eq_false _ ▸ Iff.rfl

theorem writable64 (e : BitVec 64) : low40 e &&& 2 = 0 ↔ writable e = false := by
  rw [show low40 e &&& 2 = 0 ↔ (low40 e).getLsbD 1 = false from flag_iff (by omega) (by decide),
    low40_bit e (by omega)]
  rfl

theorem user64 (e : BitVec 64) : low40 e &&& 4 = 0 ↔ userPage e = false := by
  rw [show low40 e &&& 4 = 0 ↔ (low40 e).getLsbD 2 = false from flag_iff (by omega) (by decide),
    low40_bit e (by omega)]
  rfl

theorem low40_and (e f : BitVec 64) : low40 e &&& low40 f = low40 (e &&& f) := by
  unfold low40
  rw [BitVec.and_assoc, ← BitVec.and_assoc (_ : BitVec 64) f, BitVec.and_comm _ f,
    BitVec.and_assoc f, BitVec.and_self, BitVec.and_assoc]

theorem userPage_and {w : Nat} (e f : BitVec w) :
    userPage (e &&& f) = (userPage f && userPage e) := by
  unfold userPage
  rw [BitVec.getLsbD_and, Bool.and_comm]

theorem writable_and {w : Nat} (e f : BitVec w) :
    writable (e &&& f) = (writable f && writable e) := by
  unfold writable
  rw [BitVec.getLsbD_and, Bool.and_comm]

/-! ## Rights -/

section

variable {s : MmuState} {rw user writable : Bool}

/-- The test of the walkers, with what they take for WP. -/
theorem denied_iff {wp : Prop} (hwp : WpBinds s ↔ wp) :
    ((CPL s = 3 ∧ user = false ∧ s.cpl_override = false) ∨
      (rw = true ∧ s.cpl_override = false ∧ writable = false ∧
        ((CPL s = 3 ∧ s.cpl_override = false) ∨ wp))) ↔ ¬Allows s rw user writable := by
  unfold Allows
  rw [← hwp]
  cases s.cpl_override <;> cases user <;> cases writable <;> simp <;> tauto

theorem wp_normal (h : s.cr4 &&& CR4_PAE = 0) :
    WpBinds s ↔ (s.is486 = true ∨ s.isibm486 = true) ∧ s.cr0 &&& WP_FLAG ≠ 0 := by
  unfold WpBinds
  simp only [h, ne_eq, not_true_eq_false, false_or]
  exact and_comm

theorem wp_pae (h : s.cr4 &&& CR4_PAE ≠ 0) : WpBinds s ↔ s.cr0 &&& WP_FLAG ≠ 0 := by
  unfold WpBinds
  simp only [h, ne_eq, not_false_eq_true, true_or, and_true]

end

/-! ## Faults -/

theorem pageFault_eq (addr : BitVec 32) (rw : Bool) (temp : BitVec 32) (s : MmuState) (p : Bool)
    (h : temp.getLsbD 0 = p) :
    (pageFault addr rw temp s, PHYS_INVALID) = (Outcome.fault p).result addr rw s := by
  have hbit : temp &&& 1 = if p then 1 else 0 := by
    have hand : temp &&& 1 = temp &&& BitVec.twoPow 32 0 := by congr 1
    rw [hand, BitVec.and_twoPow, h]
    rfl
  unfold pageFault Outcome.result errorCode
  rw [hbit]
  by_cases h3 : CPL s = 3
  · simp only [if_pos h3, decide_eq_true h3]
    cases p <;> cases rw <;> rfl
  · simp only [if_neg h3, decide_eq_false h3]
    cases p <;> cases rw <;> rfl

/-! ## Entries that were used -/

/-- A store of more bits in a dword. -/
def orCell (c : Nat) (bits : BitVec 32) (s : MmuState) : MmuState :=
  { s with host := Function.update s.host c (s.host c ||| bits) }

section

variable {s : MmuState} {rw : Bool}

theorem rammapOr_eq (x bits : BitVec 32) : rammapOr x bits s = orCell (cell s x.toNat) bits s := by
  unfold rammapOr rammap orCell
  rw [rammapIndex_eq]

theorem rammap64Or_eq {x : BitVec 64} (h : x.toNat % 8 = 0) (bits : BitVec 32) :
    rammap64Or x bits s = orCell (cell s x.toNat) bits s := by
  unfold rammap64Or orCell
  rw [rammap64Index_eq h]

/-- The bits of the last entry. -/
def leafBits (rw : Bool) : BitVec 32 := if rw then 0x60 else 0x20

theorem leaf_used (s : MmuState) (rw : Bool) (leaf : Nat) :
    orCell (cell s leaf) (leafBits rw) s = { s with host := usedHost rw [] leaf s } := by
  unfold orCell usedHost leafBits
  congr 1
  funext i
  by_cases hi : i = cell s leaf
  · subst hi
    cases rw <;> simp [ACCESSED, DIRTY, BitVec.or_assoc]
  · simp [hi]

/-- Two entries, which may be one and the same dword. -/
theorem both_used (s : MmuState) (rw : Bool) (upper leaf : Nat) :
    orCell (cell s leaf) (leafBits rw) (orCell (cell s upper) 0x20 s) =
      { s with host := usedHost rw [upper] leaf s } := by
  unfold orCell usedHost leafBits
  congr 1
  funext i
  by_cases hi : i = cell s leaf
  · subst hi
    by_cases hu : cell s leaf = cell s upper
    · rw [← hu]
      cases rw <;> simp [ACCESSED, DIRTY, BitVec.or_assoc]
    · cases rw <;> simp [ACCESSED, DIRTY, BitVec.or_assoc, hu]
  · by_cases hu : i = cell s upper
    · subst hu
      simp [hi, ACCESSED]
    · simp [hi, hu]

end

/-! ## Addresses -/

section

variable (x y : BitVec 32) (e : BitVec 64)

/-- An address of two parts that do not overlap. -/
theorem toNat_parts {w : Nat} {a b : BitVec w} {m n : Nat} (ha : a.toNat = m) (hb : b.toNat = n)
    (h : m + n < 2 ^ w) : (a + b).toNat = m + n := by
  rw [BitVec.toNat_add, ha, hb, Nat.mod_eq_of_lt h]

theorem shifted_field {w : Nat} (a : BitVec w) (j : Nat) {k n : Nat} {m : BitVec w}
    (hm : IsMask k n m) :
    ((a >>> j) &&& m).toNat = 2 ^ k * (a.toNat / 2 ^ j / 2 ^ k % 2 ^ n) := by
  rw [toNat_and_mask hm, BitVec.toNat_ushiftRight, Nat.shiftRight_eq_div_pow]

theorem directory_at : ((x &&& ~~~0xfff#32) + ((y >>> 20) &&& 0xffc)).toNat =
    2 ^ 12 * (x.toNat / 2 ^ 12) + 4 * (y.toNat / 2 ^ 22) := by
  have hx := toNat_and_mask (by decide : IsMask 12 20 (~~~0xfff#32)) x
  have hy := shifted_field y 20 (by decide : IsMask 2 10 (0xffc : BitVec 32))
  have h1 := x.isLt
  have h2 := y.isLt
  rw [toNat_parts hx hy (by omega)]
  omega

theorem table_at : ((x &&& ~~~0xfff#32) + ((y >>> 10) &&& 0xffc)).toNat =
    2 ^ 12 * frame x 12 + 4 * (y.toNat / 2 ^ 12 % 2 ^ 10) := by
  have hx := toNat_and_mask (by decide : IsMask 12 20 (~~~0xfff#32)) x
  have hy := shifted_field y 10 (by decide : IsMask 2 10 (0xffc : BitVec 32))
  have h1 := x.isLt
  unfold frame
  rw [toNat_parts hx hy (by omega)]
  omega

theorem page4K_at : ((x &&& ~~~0xfff#32) + (y &&& 0xfff)).setWidth 64 =
    BitVec.ofNat 64 (2 ^ 12 * frame x 12 + y.toNat % 2 ^ 12) := by
  have hx := toNat_and_mask (by decide : IsMask 12 20 (~~~0xfff#32)) x
  have hy := toNat_and_mask (by decide : IsMask 0 12 (0xfff : BitVec 32)) y
  have h1 := x.isLt
  apply BitVec.eq_of_toNat_eq
  unfold frame
  rw [BitVec.toNat_setWidth, toNat_parts hx hy (by omega), BitVec.toNat_ofNat]
  omega

/-- The frame of a 4MB page, with the four bits of PSE-36 above it. -/
theorem pse36_frame : ((x &&& ~~~0x3fffff#32).setWidth 64 |||
    ((x &&& 0x1e000).setWidth 64 <<< 19) : BitVec 64).toNat =
      2 ^ 32 * (x.toNat / 2 ^ 13 % 2 ^ 4) + 2 ^ 22 * frame x 22 := by
  have hx := toNat_and_mask (by decide : IsMask 22 10 (~~~0x3fffff#32)) x
  have hp := toNat_and_mask (by decide : IsMask 13 4 (0x1e000 : BitVec 32)) x
  have h1 := x.isLt
  have hlow : ((x &&& ~~~0x3fffff#32).setWidth 64 : BitVec 64).toNat = 2 ^ 22 * frame x 22 := by
    unfold frame
    rw [BitVec.toNat_setWidth, hx]
    omega
  have hhigh : (((x &&& 0x1e000).setWidth 64 : BitVec 64) <<< 19).toNat =
      2 ^ 32 * (x.toNat / 2 ^ 13 % 2 ^ 4) := by
    rw [BitVec.toNat_shiftLeft, Nat.shiftLeft_eq, BitVec.toNat_setWidth, hp]
    omega
  have hlt : 2 ^ 22 * frame x 22 < 2 ^ 32 := by
    unfold frame
    omega
  rw [BitVec.toNat_or, hlow, hhigh, Nat.or_comm, ← Nat.two_pow_add_eq_or_of_lt hlt]

theorem page4M_at (high : Prop) [Decidable high] :
    (if high then (x &&& ~~~0x3fffff#32).setWidth 64 ||| ((x &&& 0x1e000).setWidth 64 <<< 19)
      else (x &&& ~~~0x3fffff#32).setWidth 64 : BitVec 64) + (y &&& 0x3fffff).setWidth 64 =
    BitVec.ofNat 64 (2 ^ 32 * (if high then x.toNat / 2 ^ 13 % 2 ^ 4 else 0) +
      2 ^ 22 * frame x 22 + y.toNat % 2 ^ 22) := by
  have hx := toNat_and_mask (by decide : IsMask 22 10 (~~~0x3fffff#32)) x
  have hy := toNat_and_mask (by decide : IsMask 0 22 (0x3fffff : BitVec 32)) y
  have h1 := x.isLt
  have hoffset : ((y &&& 0x3fffff).setWidth 64 : BitVec 64).toNat = y.toNat % 2 ^ 22 := by
    rw [BitVec.toNat_setWidth, hy]
    omega
  have hframe : 2 ^ 22 * frame x 22 < 2 ^ 32 := by
    unfold frame
    omega
  have hmod : y.toNat % 2 ^ 22 < 2 ^ 22 := Nat.mod_lt _ (by omega)
  apply BitVec.eq_of_toNat_eq
  split_ifs
  · have hpse := pse36_frame x
    have hlt :
        2 ^ 32 * (x.toNat / 2 ^ 13 % 2 ^ 4) + 2 ^ 22 * frame x 22 + y.toNat % 2 ^ 22 < 2 ^ 64 := by
      clear hx hy hoffset hpse
      omega
    rw [toNat_parts hpse hoffset hlt, BitVec.toNat_ofNat, Nat.mod_eq_of_lt hlt]
  · have hlow : ((x &&& ~~~0x3fffff#32).setWidth 64 : BitVec 64).toNat = 2 ^ 22 * frame x 22 := by
      unfold frame
      rw [BitVec.toNat_setWidth, hx]
      omega
    have hlt : 2 ^ 22 * frame x 22 + y.toNat % 2 ^ 22 < 2 ^ 64 := by
      clear hx hy hoffset hlow
      omega
    rw [toNat_parts hlow hoffset hlt, BitVec.toNat_ofNat, Nat.mul_zero, Nat.zero_add,
      Nat.mod_eq_of_lt hlt]

/-! The addresses of PAE. -/

theorem pointers_at : (((x &&& ~~~0x1f#32) + ((y >>> 27) &&& 0x18)).setWidth 64 : BitVec 64).toNat =
    2 ^ 5 * (x.toNat / 2 ^ 5) + 8 * (y.toNat / 2 ^ 30) := by
  have hx := toNat_and_mask (by decide : IsMask 5 27 (~~~0x1f#32)) x
  have hy := shifted_field y 27 (by decide : IsMask 3 2 (0x18 : BitVec 32))
  have h1 := x.isLt
  have h2 := y.isLt
  rw [BitVec.toNat_setWidth, toNat_parts hx hy (by omega)]
  omega

/-- An entry of the table that an entry of PAE names. -/
theorem paeEntry_at (j : Nat) {m : BitVec 32} (hm : IsMask 3 9 m) :
    ((low40 e &&& ~~~0xfff#64) + ((y >>> j) &&& m).setWidth 64).toNat =
      2 ^ 12 * frame e 12 + 8 * (y.toNat / 2 ^ j / 2 ^ 3 % 2 ^ 9) := by
  have hx := toNat_and_mask (by decide : IsMask 12 52 (~~~0xfff#64)) (low40 e)
  have hy : (((y >>> j) &&& m).setWidth 64 : BitVec 64).toNat =
      8 * (y.toNat / 2 ^ j / 2 ^ 3 % 2 ^ 9) := by
    rw [BitVec.toNat_setWidth, shifted_field y j hm]
    omega
  rw [low40_toNat] at hx
  unfold frame
  rw [toNat_parts hx hy (by omega)]
  omega

/-- A page of PAE, of 4KB or of 2MB. -/
theorem paePage_at {k : Nat} (hk : k = 12 ∨ k = 21) {a : BitVec 64} {b : BitVec 32}
    (ha : IsMask k (64 - k) a) (hb : IsMask 0 k b) :
    ((low40 e &&& a) + (y &&& b).setWidth 64) &&& 0x000000ffffffffff =
      BitVec.ofNat 64 (2 ^ k * frame e k + y.toNat % 2 ^ k) := by
  have hx := toNat_and_mask ha (low40 e)
  have hy : ((y &&& b).setWidth 64 : BitVec 64).toNat = y.toNat % 2 ^ k := by
    rw [BitVec.toNat_setWidth, toNat_and_mask hb]
    rcases hk with rfl | rfl <;> omega
  rw [low40_toNat] at hx
  apply BitVec.eq_of_toNat_eq
  rw [toNat_and_mask (by decide : IsMask 0 40 (0x000000ffffffffff : BitVec 64)),
    BitVec.toNat_add, hx, hy, BitVec.toNat_ofNat]
  unfold frame
  rcases hk with rfl | rfl <;> omega

end

/-! ## The walks -/

section

variable {addr : BitVec 32} {rw : Bool} {s : MmuState}

/-- Where the entry allows the access or denies it. -/
theorem allowed_result {denied : Prop} [Decidable denied] {user writable : Bool}
    {fault : MmuState × BitVec 64} {real : MmuState} {v : BitVec 64} {address leaf : Nat}
    {upper : List Nat} (hd : denied ↔ ¬Allows s rw user writable)
    (hf : fault = (Outcome.fault true).result addr rw s)
    (hr : (real, v) = (Outcome.page address upper leaf).result addr rw s) :
    (if denied then fault else (real, v)) =
      (if Allows s rw user writable then Outcome.page address upper leaf
        else Outcome.fault true).result addr rw s := by
  by_cases h : Allows s rw user writable
  · have hno : ¬denied := fun hdenied => hd.mp hdenied h
    rw [if_neg hno, if_pos h, hr]
  · rw [if_pos (hd.mpr h), if_neg h, hf]

theorem normal_walk (habrt : s.abrt = 0) (hpae : s.cr4 &&& CR4_PAE = 0) :
    mmutranslatereal_normal addr rw s = (twoLevels addr rw s).result addr rw s := by
  have hab : ¬s.abrt ≠ 0 := fun h => h habrt
  unfold mmutranslatereal_normal twoLevels
  rw [if_neg hab]
  dsimp only
  simp only [rammap_eq, directory_at, table_at, rammapOr_eq]
  generalize 2 ^ 12 * (s.cr3.toNat / 2 ^ 12) + 4 * (addr.toNat / 2 ^ 22) = directory
  generalize hpde : entry32 s directory = pde
  by_cases hp : pde &&& 1 = 0
  · have hp' := (present32 pde).mp hp
    rw [if_pos hp, if_pos hp']
    exact pageFault_eq addr rw pde s false hp'
  have hp' : ¬present pde = false := fun h => hp ((present32 pde).mpr h)
  rw [if_neg hp, if_neg hp']
  have hbig : (pde &&& 0x80 ≠ 0 ∧ s.cr4 &&& CR4_PSE ≠ 0) ↔
      (large pde = true ∧ s.cr4 &&& CR4_PSE ≠ 0) := by
    rw [large32]
  by_cases hl : large pde = true ∧ s.cr4 &&& CR4_PSE ≠ 0
  · rw [if_pos (hbig.mpr hl), if_pos hl]
    refine allowed_result ?_ (pageFault_eq addr rw pde s true (Bool.eq_true_of_not_eq_false hp')) ?_
    · rw [user32, writable32]
      exact denied_iff (wp_normal hpae)
    · have hused := leaf_used s rw directory
      have haddress := page4M_at pde addr (s.cpu_features &&& CPU_FEATURE_PSE36 ≠ 0)
      exact Prod.ext hused haddress
  · rw [if_neg (fun h => hl (hbig.mp h)), if_neg hl]
    generalize 2 ^ 12 * frame pde 12 + 4 * (addr.toNat / 2 ^ 12 % 2 ^ 10) = table
    generalize hpte : entry32 s table = pte
    by_cases ht : pte &&& 1 = 0
    · have ht' := (present32 pte).mp ht
      rw [if_pos (Or.inl ht), if_pos ht']
      exact pageFault_eq addr rw pte s false ht'
    have ht' : ¬present pte = false := fun h => ht ((present32 pte).mpr h)
    rw [if_neg ht']
    refine allowed_result ?_ (pageFault_eq addr rw pte s true (Bool.eq_true_of_not_eq_false ht')) ?_
    · rw [user32, writable32, userPage_and, writable_and, or_iff_right ht]
      exact denied_iff (wp_normal hpae)
    · have hused := both_used s rw directory table
      have haddress := page4K_at pte addr
      exact Prod.ext hused haddress

theorem low40_eq (e : BitVec 64) : e &&& 0x000000ffffffffff = low40 e := rfl

/-- The flags that the fault word takes from an entry of PAE. -/
theorem low40_present {e : BitVec 64} {p : Bool} (h : present e = p) :
    ((low40 e).setWidth 32).getLsbD 0 = p := by
  rw [BitVec.getLsbD_setWidth, low40_bit e (by omega)]
  simpa [present] using h

theorem pae_walk (habrt : s.abrt = 0) (hpae : s.cr4 &&& CR4_PAE ≠ 0) :
    mmutranslatereal_pae addr rw s = (threeLevels addr rw s).result addr rw s := by
  have hab : ¬s.abrt ≠ 0 := fun h => h habrt
  unfold mmutranslatereal_pae threeLevels
  rw [if_neg hab]
  dsimp only
  have hpointers := pointers_at s.cr3 addr
  generalize (((s.cr3 &&& ~~~0x1f#32) + ((addr >>> 27) &&& 0x18)).setWidth 64 : BitVec 64) = addr2
    at hpointers ⊢
  rw [rammap64_eq (by omega), hpointers, low40_eq]
  generalize entry64 s (2 ^ 5 * (s.cr3.toNat / 2 ^ 5) + 8 * (addr.toNat / 2 ^ 30)) = pdpte
  by_cases hp : low40 pdpte &&& 1 = 0
  · have hp' := (present64 pdpte).mp hp
    rw [if_pos hp, if_pos hp']
    exact pageFault_eq addr rw _ s false (low40_present hp')
  have hp' : ¬present pdpte = false := fun h => hp ((present64 pdpte).mpr h)
  rw [if_neg hp, if_neg hp']
  have hdirectory := paeEntry_at addr pdpte 18 (by decide : IsMask 3 9 (0xff8 : BitVec 32))
  rw [show addr.toNat / 2 ^ 18 / 2 ^ 3 = addr.toNat / 2 ^ 21 by omega] at hdirectory
  generalize (low40 pdpte &&& ~~~0xfff#64) + ((addr >>> 18) &&& 0xff8).setWidth 64 = addr3
    at hdirectory ⊢
  rw [rammap64_eq (by omega), low40_eq, ← hdirectory]
  generalize entry64 s addr3.toNat = pde
  by_cases hd : low40 pde &&& 1 = 0
  · have hd' := (present64 pde).mp hd
    rw [if_pos hd, if_pos hd']
    exact pageFault_eq addr rw _ s false (low40_present hd')
  have hd' : ¬present pde = false := fun h => hd ((present64 pde).mpr h)
  have hd1 : present pde = true := Bool.eq_true_of_not_eq_false hd'
  rw [if_neg hd, if_neg hd']
  by_cases hl : large pde = true
  · rw [if_pos ((large64 pde).mpr hl), if_pos hl]
    refine allowed_result ?_ (pageFault_eq addr rw _ s true (low40_present hd1)) ?_
    · rw [user64, writable64]
      exact denied_iff (wp_pae hpae)
    · have hused := leaf_used s rw addr3.toNat
      have haddress := paePage_at addr pde (Or.inr rfl) (by decide : IsMask 21 43 (~~~0x1fffff#64))
        (by decide : IsMask 0 21 (0x1fffff : BitVec 32))
      rw [← rammap64Or_eq (by omega)] at hused
      exact Prod.ext hused haddress
  · rw [if_neg (fun h => hl ((large64 pde).mp h)), if_neg hl]
    have htable := paeEntry_at addr pde 9 (by decide : IsMask 3 9 (0xff8 : BitVec 32))
    rw [show addr.toNat / 2 ^ 9 / 2 ^ 3 = addr.toNat / 2 ^ 12 by omega] at htable
    generalize (low40 pde &&& ~~~0xfff#64) + ((addr >>> 9) &&& 0xff8).setWidth 64 = addr4
      at htable ⊢
    rw [rammap64_eq (by omega), low40_eq, ← htable]
    generalize entry64 s addr4.toNat = pte
    by_cases ht : low40 pte &&& 1 = 0
    · have ht' := (present64 pte).mp ht
      rw [if_pos (Or.inl ht), if_pos ht']
      exact pageFault_eq addr rw _ s false (low40_present ht')
    have ht' : ¬present pte = false := fun h => ht ((present64 pte).mpr h)
    have ht1 : present pte = true := Bool.eq_true_of_not_eq_false ht'
    rw [if_neg ht']
    refine allowed_result ?_ (pageFault_eq addr rw _ s true (low40_present ht1)) ?_
    · rw [low40_and, user64, writable64, userPage_and, writable_and, or_iff_right ht]
      exact denied_iff (wp_pae hpae)
    · have hused := both_used s rw addr3.toNat addr4.toNat
      have haddress := paePage_at addr pte (Or.inl rfl) (by decide : IsMask 12 52 (~~~0xfff#64))
        (by decide : IsMask 0 12 (0xfff : BitVec 32))
      -- the first store moves no entry
      have hupper : rammap64Or addr3 0x20 s = orCell (cell s addr3.toNat) 0x20 s :=
        rammap64Or_eq (by omega) 0x20
      have hleaf : rammap64Or addr4 (leafBits rw) (rammap64Or addr3 0x20 s) =
          orCell (cell s addr4.toNat) (leafBits rw) (rammap64Or addr3 0x20 s) :=
        rammap64Or_eq (by omega) (leafBits rw)
      rw [← hupper, ← hleaf] at hused
      exact Prod.ext hused haddress

/-- An address has at most 40 bits, so it is never the value of a fault. -/
theorem walk_lt {address leaf : Nat} {upper : List Nat}
    (h : walk addr rw s = .page address upper leaf) : address < 2 ^ 40 := by
  have hframe : ∀ {w : Nat} (e : BitVec w) (k : Nat), frame e k < 2 ^ (40 - k) :=
    fun e k => Nat.mod_lt _ (Nat.two_pow_pos _)
  unfold walk at h
  by_cases hpae : s.cr4 &&& CR4_PAE ≠ 0
  · rw [if_pos hpae] at h
    unfold threeLevels at h
    dsimp only at h
    generalize entry64 s (2 ^ 5 * (s.cr3.toNat / 2 ^ 5) + 8 * (addr.toNat / 2 ^ 30)) = pdpte at h
    generalize entry64 s (2 ^ 12 * frame pdpte 12 + 8 * (addr.toNat / 2 ^ 21 % 2 ^ 9)) = pde at h
    generalize entry64 s (2 ^ 12 * frame pde 12 + 8 * (addr.toNat / 2 ^ 12 % 2 ^ 9)) = pte at h
    have h2M := hframe pde 21
    have h4K := hframe pte 12
    split_ifs at h
    · obtain ⟨rfl, -, -⟩ := Outcome.page.inj h
      omega
    · obtain ⟨rfl, -, -⟩ := Outcome.page.inj h
      omega
  · rw [if_neg hpae] at h
    unfold twoLevels at h
    dsimp only at h
    generalize entry32 s (2 ^ 12 * (s.cr3.toNat / 2 ^ 12) + 4 * (addr.toNat / 2 ^ 22)) = pde at h
    generalize entry32 s (2 ^ 12 * frame pde 12 + 4 * (addr.toNat / 2 ^ 12 % 2 ^ 10)) = pte at h
    have h4M : frame pde 22 < 2 ^ 10 := by
      have hlt := pde.isLt
      unfold frame
      omega
    have h4K := hframe pte 12
    have hhigh : (if s.cpu_features &&& CPU_FEATURE_PSE36 ≠ 0 then pde.toNat / 2 ^ 13 % 2 ^ 4
        else 0) < 2 ^ 4 := by
      split_ifs
      · exact Nat.mod_lt _ (by omega)
      · omega
    generalize (if s.cpu_features &&& CPU_FEATURE_PSE36 ≠ 0 then pde.toNat / 2 ^ 13 % 2 ^ 4
        else 0) = high at h hhigh
    split_ifs at h
    · obtain ⟨rfl, -, -⟩ := Outcome.page.inj h
      omega
    · obtain ⟨rfl, -, -⟩ := Outcome.page.inj h
      omega

/-- The walk, when no abort is pending. -/
theorem real_walk (habrt : s.abrt = 0) :
    mmutranslatereal addr rw s = (walk addr rw s).result addr rw s := by
  have hab : ¬s.abrt ≠ 0 := fun h => h habrt
  unfold mmutranslatereal walk
  rw [if_neg hab]
  by_cases hpae : s.cr4 &&& CR4_PAE ≠ 0
  · rw [if_pos hpae, if_pos hpae]
    exact pae_walk habrt hpae
  · rw [if_neg hpae, if_neg hpae]
    exact normal_walk habrt (not_not.mp hpae)

end

/-- The walk is the one of the architecture, unless an abort is pending. Its address is never
the value of a fault. -/
theorem the_walk_is_the_architectural_one (addr : BitVec 32) (rw : Bool) (s : MmuState) :
    (mmutranslatereal addr rw s =
      if s.abrt ≠ 0 then (s, PHYS_INVALID) else (walk addr rw s).result addr rw s) ∧
    ∀ address upper leaf, walk addr rw s = .page address upper leaf → address < 2 ^ 40 := by
  refine ⟨?_, fun address upper leaf h => walk_lt h⟩
  by_cases habrt : s.abrt ≠ 0
  · rw [if_pos habrt]
    unfold mmutranslatereal
    rw [if_pos habrt]
  · rw [if_neg habrt]
    exact real_walk (not_not.mp habrt)

end blumach.mmu
