-- The states that the loops of translations leave. A loop walks the first page, if that has no
-- lookup of its own, and then the second; it looks no further when it returns.
import BluMach.MemAccessPieces

namespace blumach.mem_access

open mem_lookup mmu

/-- The first page was walked, if it is walked. -/
def afterFirst (rw : Bool) (addr : BitVec 32) (s : Machine) : Machine :=
  if Skips rw s addr then s else (mmutranslate rw addr s).1

/-- And the second one, at the last byte of the access. -/
def afterBoth (rw : Bool) (addr : BitVec 32) (n : Nat) (s : Machine) : Machine :=
  afterFirst rw (linear addr (n - 1)) (afterFirst rw addr s)

section

variable {s s₀ : Machine} {rw checked : Bool} {addr : BitVec 32} {i j k m n : Nat} {a : BitVec 64}
  {a64 : Nat → BitVec 32}

/-! ## The pages of an access -/

theorem inFirst_pos : 0 < inFirst addr := by
  unfold inFirst
  omega

theorem inFirst_lt (h : Crosses addr n) : inFirst addr < n := by
  unfold Crosses at h
  unfold inFirst
  omega

theorem first_page (h : j < inFirst addr) : pageOf (linear addr j) = pageOf addr := by
  unfold inFirst at h
  exact (linear_page (by omega)).2

theorem second_page (hn : n ≤ 8) (h : inFirst addr ≤ j) (hj : j < n) :
    pageOf (linear addr j) = pageOf (linear addr (n - 1)) := by
  unfold inFirst at h
  have hlt := addr.isLt
  rw [pageOf_eq_iff, linear_toNat, linear_toNat]
  omega

theorem pages_differ (hn : n ≤ 8) (h : Crosses addr n) :
    pageOf (linear addr (n - 1)) ≠ pageOf addr := by
  unfold Crosses at h
  have hlt := addr.isLt
  rw [Ne, pageOf_eq_iff, linear_toNat]
  omega

theorem starts_page : (linear addr (inFirst addr)).toNat % 2 ^ 12 = 0 := by
  have hlt := addr.isLt
  rw [linear_toNat]
  unfold inFirst
  omega

theorem inside_first (h0 : j ≠ 0) (h : j < inFirst addr) :
    (linear addr j).toNat % 2 ^ 12 ≠ 0 := by
  have hlt := addr.isLt
  unfold inFirst at h
  rw [linear_toNat]
  omega

theorem inside_second (hn : n ≤ 8) (h : inFirst addr < j) (hj : j < n) :
    (linear addr j).toNat % 2 ^ 12 ≠ 0 := by
  have hlt := addr.isLt
  unfold inFirst at h
  rw [linear_toNat]
  omega

theorem skips_same {x y : BitVec 32} (h : pageOf x = pageOf y) : Skips rw s x ↔ Skips rw s y := by
  unfold Skips
  rw [tracked_page h]

/-- What is so of each byte of an access in two pages is so of both pages. -/
theorem forall_bytes {P : BitVec 32 → Prop} (hn : n ≤ 8) (h : Crosses addr n)
    (hP : ∀ x y, pageOf x = pageOf y → (P x ↔ P y)) :
    (∀ j < n, P (linear addr j)) ↔ P addr ∧ P (linear addr (n - 1)) := by
  have hlt := inFirst_lt h
  have hpos := @inFirst_pos addr
  constructor
  · intro hall
    have hfirst := hall 0 (by omega)
    rw [linear_zero] at hfirst
    exact ⟨hfirst, hall (n - 1) (by omega)⟩
  · rintro ⟨hfirst, hlast⟩ j hj
    by_cases hin : j < inFirst addr
    · exact (hP _ _ (first_page hin)).mpr hfirst
    · exact (hP _ _ (second_page hn (by omega) hj)).mpr hlast

theorem exists_byte {P : BitVec 32 → Prop} (hn : n ≤ 8) (h : Crosses addr n)
    (hP : ∀ x y, pageOf x = pageOf y → (P x ↔ P y)) :
    (∃ j < n, P (linear addr j)) ↔ P addr ∨ P (linear addr (n - 1)) := by
  have hall := forall_bytes (P := fun x => ¬P x) hn h fun x y hxy => not_congr (hP x y hxy)
  constructor
  · rintro ⟨j, hj, hbyte⟩
    by_contra hno
    exact (hall.mpr (not_or.mp hno)) j hj hbyte
  · intro hor
    by_contra hno
    obtain ⟨hfirst, hlast⟩ := hall.mp fun j hj hbyte => hno ⟨j, hj, hbyte⟩
    exact hor.elim hfirst hlast

/-! ## The loop of the longs and the quads -/

theorem mmutranslate_skips (x y : BitVec 32) :
    Skips rw (mmutranslate rw x s).1 y ↔ Skips rw s y := by
  rw [mmutranslate_eq]
  exact Iff.rfl

/-- One turn of the loop. -/
theorem translateBytes_succ : translateBytes rw checked addr n (m + 1) i a a64 s =
    if Skips rw s (linear addr i) then translateBytes rw checked addr n m (i + 1) a a64 s
    else if checked = true ∧ (translateByte rw addr n i a s).2 > 0xffffffff then
      ((translateByte rw addr n i a s).1, none)
    else translateBytes rw checked addr n m (i + 1) (translateByte rw addr n i a s).2
      (Function.update a64 i ((translateByte rw addr n i a s).2.setWidth 32))
      (translateByte rw addr n i a s).1 := rfl

theorem translateByte_inside (hi : i ≠ 0) (hinside : (linear addr i).toNat % 2 ^ 12 ≠ 0) :
    translateByte rw addr n i a s = (s, withOffset a (linear addr i)) := by
  have hno : ¬(addr + BitVec.ofNat 32 i &&& 0xfff = 0) := fun hz =>
    hinside (offset_eq_zero.mp hz)
  unfold translateByte
  dsimp only
  rw [if_neg hi, if_neg hno]
  rfl

theorem translateByte_start (hi : i ≠ 0) (hstart : (linear addr i).toNat % 2 ^ 12 = 0) :
    (translateByte rw addr n i a s).1 = (mmutranslate rw (linear addr (n - 1)) s).1 := by
  have hzero : addr + BitVec.ofNat 32 i &&& 0xfff = 0 := offset_eq_zero.mpr hstart
  unfold translateByte
  dsimp only
  rw [if_neg hi, if_pos hzero]
  rfl

theorem translateByte_zero : translateByte rw addr n 0 a s = mmutranslate rw addr s := by
  have hhere : addr + BitVec.ofNat 32 0 = addr := linear_zero addr
  unfold translateByte
  dsimp only
  rw [if_pos rfl, hhere]

/-- The bytes that are left are in the page of the byte before. -/
theorem translateBytes_rest (hi : i ≠ 0)
    (hinside : ∀ j, i ≤ j → j < i + m → (linear addr j).toNat % 2 ^ 12 ≠ 0) :
    (translateBytes rw checked addr n m i a a64 s).1 = s := by
  induction m generalizing i a a64 with
  | zero => rfl
  | succ m ih =>
    have hnext := fun a a64 => @ih (i + 1) a a64 (by omega)
      fun j hj hlt => hinside j (by omega) (by omega)
    rw [translateBytes_succ, translateByte_inside hi (hinside i (le_refl i) (by omega))]
    split_ifs
    · exact hnext _ _
    · rfl
    · exact hnext _ _

/-- The loop comes to the second page when the address of the first one has 32 bits. -/
theorem translateBytes_first (hi : i ≠ 0) (hin : i + m ≤ inFirst addr)
    (hlow : checked = true → ¬Skips rw s addr → ¬a > 0xffffffff) :
    ∃ a' a64', translateBytes rw checked addr n (m + k) i a a64 s =
      translateBytes rw checked addr n k (i + m) a' a64' s := by
  induction m generalizing i a a64 with
  | zero => exact ⟨a, a64, by rw [Nat.zero_add, Nat.add_zero]⟩
  | succ m ih =>
    have hpage : Skips rw s (linear addr i) ↔ Skips rw s addr :=
      skips_same (first_page (by omega))
    have hsum : m + 1 + k = (m + k) + 1 := by omega
    have hnext : i + (m + 1) = i + 1 + m := by omega
    rw [hsum, hnext, translateBytes_succ, translateByte_inside hi (inside_first hi (by omega))]
    by_cases hskip : Skips rw s (linear addr i)
    · rw [if_pos hskip]
      exact ih (by omega) (by omega) hlow
    · have hkeep : checked = true → ¬Skips rw s addr →
          ¬withOffset a (linear addr i) > 0xffffffff := by
        intro hc hs
        have hle := hlow hc hs
        rw [gt_iff_lt, BitVec.lt_def] at hle ⊢
        have hmax : (0xffffffff : BitVec 64).toNat = 2 ^ 32 - 1 := rfl
        rw [withOffset_toNat]
        omega
      rw [if_neg hskip, if_neg fun hstop => hkeep hstop.1 (fun hs => hskip (hpage.mpr hs)) hstop.2]
      exact ih (by omega) (by omega) hkeep

/-- The second page is walked at the last byte. -/
theorem translateBytes_second (hn : n ≤ 8) (hm : inFirst addr + (m + 1) = n) :
    (translateBytes rw checked addr n (m + 1) (inFirst addr) a a64 s).1 =
      afterFirst rw (linear addr (n - 1)) s := by
  have hpos := @inFirst_pos addr
  have hpage : Skips rw s (linear addr (inFirst addr)) ↔ Skips rw s (linear addr (n - 1)) :=
    skips_same (second_page hn (le_refl _) (by omega))
  have hrest := fun a a64 s => @translateBytes_rest s rw checked addr (inFirst addr + 1) m n a a64
    (by omega) fun j hj hlt => inside_second hn (by omega) (by omega)
  unfold afterFirst
  rw [translateBytes_succ]
  by_cases hskip : Skips rw s (linear addr (n - 1))
  · rw [if_pos (hpage.mpr hskip), if_pos hskip]
    exact hrest _ _ _
  · rw [if_neg fun hs => hskip (hpage.mp hs), if_neg hskip,
      ← translateByte_start (a := a) (show inFirst addr ≠ 0 by omega) starts_page]
    split_ifs
    · rfl
    · exact hrest _ _ _

/-- The state that the loop leaves. -/
theorem translateBytes_state (hn : n ≤ 8) (h : Crosses addr n) :
    (translateBytes rw checked addr n n 0 a a64 s).1 =
      if checked = true ∧ ¬Skips rw s addr ∧ High rw s addr then afterFirst rw addr s
      else afterBoth rw addr n s := by
  have hlt := inFirst_lt h
  have hpos := @inFirst_pos addr
  obtain ⟨m, hm⟩ : ∃ m, n = inFirst addr + (m + 1) := ⟨n - inFirst addr - 1, by omega⟩
  have hgo : ∀ a a64 s, (checked = true → ¬Skips rw s addr → ¬a > 0xffffffff) →
      (translateBytes rw checked addr n (inFirst addr - 1 + (m + 1)) 1 a a64 s).1 =
        afterFirst rw (linear addr (n - 1)) s := by
    intro a a64 s hlow
    obtain ⟨a', a64', hfirst⟩ := @translateBytes_first s rw checked addr 1 (m + 1)
      (inFirst addr - 1) n a a64 (by decide)
      (show 1 + (inFirst addr - 1) ≤ inFirst addr by omega) hlow
    have hone : 1 + (inFirst addr - 1) = inFirst addr := by omega
    rw [hfirst, hone]
    exact translateBytes_second hn hm.symm
  have hloop : translateBytes rw checked addr n n 0 a a64 s =
      translateBytes rw checked addr n (inFirst addr - 1 + (m + 1) + 1) 0 a a64 s :=
    congrArg (fun l => translateBytes rw checked addr n l 0 a a64 s) (by omega)
  rw [hloop, translateBytes_succ, linear_zero, translateByte_zero]
  unfold afterBoth
  by_cases hskip : Skips rw s addr
  · rw [if_pos hskip, if_neg fun hc => hc.2.1 hskip]
    unfold afterFirst
    rw [if_pos hskip]
    exact hgo _ _ s fun _ hs => absurd hskip hs
  · have hhigh : (mmutranslate rw addr s).2 > 0xffffffff ↔ High rw s addr := by
      rw [mmutranslate_eq]
      exact Iff.rfl
    have hfirst : afterFirst rw addr s = (mmutranslate rw addr s).1 := if_neg hskip
    rw [if_neg hskip, hfirst]
    simp only [hhigh]
    by_cases hstop : checked = true ∧ High rw s addr
    · rw [if_pos hstop, if_pos ⟨hstop.1, hskip, hstop.2⟩]
    · rw [if_neg hstop, if_neg fun hc => hstop ⟨hc.1, hc.2.2⟩]
      exact hgo _ _ _ fun hc _ hh => hstop ⟨hc, hhigh.mp hh⟩

/-- The loop of the words leaves the same. -/
theorem translateEach_state :
    (translateEach rw addr 2 0 a64 s).1 =
      if ¬Skips rw s addr ∧ High rw s addr then afterFirst rw addr s
      else afterBoth rw addr 2 s := by
  have hlast : ∀ a64 s, (translateEach rw addr 1 1 a64 s).1 = afterFirst rw (linear addr 1) s := by
    intro a64 s
    have hhere : addr + BitVec.ofNat 32 1 = linear addr 1 := rfl
    unfold translateEach translateEach afterFirst
    dsimp only
    rw [hhere]
    split_ifs <;> rfl
  have hhere : addr + BitVec.ofNat 32 0 = addr := linear_zero addr
  have hhigh : (mmutranslate rw addr s).2 > 0xffffffff ↔ High rw s addr := by
    rw [mmutranslate_eq]
    exact Iff.rfl
  unfold translateEach afterBoth
  dsimp only
  rw [hhere]
  by_cases hskip : Skips rw s addr
  · have hfirst : afterFirst rw addr s = s := if_pos hskip
    rw [if_pos hskip, if_neg fun hc => hc.1 hskip, hfirst]
    exact hlast _ _
  · have hfirst : afterFirst rw addr s = (mmutranslate rw addr s).1 := if_neg hskip
    rw [if_neg hskip, hfirst]
    by_cases hstop : High rw s addr
    · rw [if_pos (hhigh.mpr hstop), if_pos ⟨hskip, hstop⟩]
    · rw [if_neg fun hc => hstop (hhigh.mp hc), if_neg fun hc => hstop hc.2]
      exact hlast _ _

/-! ## Bytes that are not translated -/

theorem translateEach_skipped {c : Nat → BitVec 32}
    (hsame : ∀ x, Skips rw s x ↔ Skips rw s₀ x)
    (h : (translateEach rw addr m i a64 s).2 = some c) (hskip : Skips rw s₀ (linear addr j)) :
    c j = a64 j := by
  induction m generalizing i a64 s with
  | zero =>
    obtain rfl := Option.some.inj h
    rfl
  | succ m ih =>
    unfold translateEach at h
    dsimp only at h
    split_ifs at h with hs
    · exact ih hsame h
    · have hne : j ≠ i := by
        rintro rfl
        exact hs ((hsame _).mpr hskip)
      have hrest := ih (fun x => (mmutranslate_skips _ x).trans (hsame x)) h
      rwa [Function.update_of_ne hne] at hrest

theorem translateByte_skips (x : BitVec 32) :
    Skips rw (translateByte rw addr n i a s).1 x ↔ Skips rw s x := by
  unfold translateByte
  dsimp only
  by_cases hi : i = 0
  · rw [if_pos hi]
    exact mmutranslate_skips _ x
  · rw [if_neg hi]
    by_cases hstart : addr + BitVec.ofNat 32 i &&& 0xfff = 0
    · rw [if_pos hstart]
      exact mmutranslate_skips _ x
    · rw [if_neg hstart]

theorem translateBytes_skipped {c : Nat → BitVec 32}
    (hsame : ∀ x, Skips rw s x ↔ Skips rw s₀ x)
    (h : (translateBytes rw checked addr n m i a a64 s).2 = some c)
    (hskip : Skips rw s₀ (linear addr j)) : c j = a64 j := by
  induction m generalizing i a a64 s with
  | zero =>
    obtain rfl := Option.some.inj h
    rfl
  | succ m ih =>
    rw [translateBytes_succ] at h
    split_ifs at h with hs
    · exact ih hsame h
    · have hne : j ≠ i := by
        rintro rfl
        exact hs ((hsame _).mpr hskip)
      have hrest := ih (fun x => (translateByte_skips x).trans (hsame x)) h
      rwa [Function.update_of_ne hne] at hrest

/-- The loop of a quad has no way out. -/
theorem translateBytes_unchecked :
    ∃ c, (translateBytes rw false addr n m i a a64 s).2 = some c := by
  induction m generalizing i a a64 s with
  | zero => exact ⟨a64, rfl⟩
  | succ m ih =>
    have hno : ¬(false = true ∧ (translateByte rw addr n i a s).2 > 0xffffffff) :=
      fun hc => Bool.false_ne_true hc.1
    rw [translateBytes_succ, if_neg hno]
    by_cases hskip : Skips rw s (linear addr i)
    · rw [if_pos hskip]
      exact ih
    · rw [if_neg hskip]
      exact ih

end

end blumach.mem_access
