-- The codes of the TeleDisk decoder: in each tree that it can have, each character has one code,
-- any bits lead to a character, and each distance has a code of a fixed table.
import BluMach.Td0Bits
import BluMach.Td0Tree

namespace blumach.td0

open buffers sibling_tree

variable {t : Nodes} {s : Input} {c i : Nat}

/-! ## From the root to a leaf -/

/-- The way to a node goes down at each bit. -/
theorem reach_length {bs : List Bool} (hl : Links 313 t) (h : Reach 313 t i bs) :
    bs.length + i ≤ R := by
  induction h with
  | root => simp [R_eq]
  | @step i bs b h hson ih =>
    have hbelow := hl.below i (h.le hl) hson
    have hb := b.toNat_le
    rw [List.length_append, List.length_singleton]
    omega

/-- The bits of the way to a node lead to its son. -/
theorem walk_reach {bs rest : List Bool} (ht : Ready t) (h : Reach 313 t i bs) (hinv : Inv s)
    (hs : stream s = bs ++ rest) (hrest : 16 ≤ rest.length) :
    ∃ s', Inv s' ∧ stream s' = rest ∧
      ∀ fuel, walk t (fuel + bs.length) s (t.son R) = walk t fuel s' (t.son i) := by
  induction h generalizing rest with
  | root => exact ⟨s, hinv, by simpa using hs, fun fuel => rfl⟩
  | @step i bs b h hson ih =>
    rw [List.append_assoc] at hs
    obtain ⟨s₁, hinv₁, hs₁, hwalk⟩ := ih hs (by simp; omega)
    obtain ⟨s₂, hbit, hinv₂, hs₂⟩ := state_GetBit_spec hinv₁ hs₁ hrest
    refine ⟨s₂, hinv₂, hs₂, fun fuel => ?_⟩
    have hT : T = 2 * 313 + 1 := rfl
    have hbelow := ht.tree.links.below i (h.le ht.tree.links) hson
    have hle := h.le ht.tree.links
    have hb := b.toNat_le
    rw [List.length_append, List.length_singleton, Nat.add_comm bs.length, ← Nat.add_assoc, hwalk]
    simp only [walk, hbit]
    rw [if_pos (by omega), if_pos (by omega)]

/-- The code of a character in a tree. -/
def Code (t : Nodes) (c : Nat) (bs : List Bool) : Prop := Reach 313 t (t.prnt (2 * 313 + 1 + c)) bs

/-- Each character has one code. -/
theorem code_exists_unique (ht : Ready t) (hc : c < N_CHAR) : ∃ bs, Code t c bs ∧
    ∀ bs', Code t c bs' → bs' = bs := by
  have hn : N_CHAR = 314 := rfl
  obtain ⟨hle, -⟩ := ht.tree.links.prnt_leaf (c := c) (by omega)
  obtain ⟨bs, hbs⟩ := ht.tree.links.reach hle
  exact ⟨bs, hbs, fun bs' hbs' => hbs'.unique ht.tree.links hbs⟩

/-- A code is read as its character, and no bit behind it. -/
theorem state_DecodeChar_code {bs rest : List Bool} (ht : Ready t) (hc : c < N_CHAR)
    (hcode : Code t c bs) (hinv : Inv s) (hs : stream s = bs ++ rest) (hrest : 16 ≤ rest.length) :
    ∃ s' t', state_DecodeChar t s = some (s', some (t', c)) ∧ state_update t c = some t' ∧
      Inv s' ∧ stream s' = rest := by
  have hn : N_CHAR = 314 := rfl
  have hT : T = R + 1 := rfl
  have hR : R = 2 * 313 := rfl
  obtain ⟨s', hinv', hs', hwalk⟩ := walk_reach ht hcode hinv hs hrest
  obtain ⟨-, hson⟩ := ht.tree.links.prnt_leaf (c := c) (by omega)
  obtain ⟨t', hupdate, -⟩ := state_update_spec ht hc
  have hlength := reach_length ht.tree.links hcode
  obtain ⟨n, hfuel⟩ := Nat.exists_eq_add_of_le (show bs.length + 1 ≤ T by omega)
  have hrun := hwalk (n + 1)
  rw [show n + 1 + bs.length = T by omega, hson] at hrun
  have hleaf : walk t (n + 1) s' (2 * 313 + 1 + c) = some (s', some (2 * 313 + 1 + c)) := by
    simp only [walk]
    exact if_neg (by omega)
  refine ⟨s', t', ?_, hupdate, hinv', hs'⟩
  unfold state_DecodeChar
  rw [hrun, hleaf]
  simp only
  rw [show 2 * 313 + 1 + c - T = c by omega, hupdate]

/-- Any bits lead to a leaf, or to the end of the file. -/
theorem walk_total (ht : Ready t) (fuel : Nat) (hs : Inside s) (hi : i ≤ R) (hfuel : i < fuel) :
    Reads (walk t fuel s (t.son i)) ∧
      ∀ s' x, walk t fuel s (t.son i) = some (s', some x) → T ≤ x ∧ x < T + N_CHAR := by
  have hn : N_CHAR = 314 := rfl
  have hT : T = 2 * 313 + 1 := rfl
  have hR : R = 2 * 313 := rfl
  induction fuel generalizing i s with
  | zero => omega
  | succ fuel ih =>
    simp only [walk]
    by_cases hnode : t.son i < T
    · rw [if_pos hnode]
      have hbelow := ht.tree.links.below i hi (by omega)
      obtain ⟨s₁, b, hbit, hs₁, hend⟩ := state_GetBit_total hs
      rw [hbit]
      cases b with
      | none => exact ⟨⟨s₁, none, rfl, hs₁, fun _ => hend rfl⟩, by simp⟩
      | some b =>
        have hb := b.toNat_le
        simp only
        rw [if_pos (by omega)]
        exact ih hs₁ (by omega) (by omega)
    · rw [if_neg hnode]
      refine ⟨⟨s, _, rfl, hs, by simp⟩, fun s' x hx => ?_⟩
      obtain ⟨-, hx⟩ := Prod.mk.inj (Option.some.inj hx)
      obtain rfl := Option.some.inj hx
      have hbound := ht.tree.links.bound i hi
      omega

/-- A character is read from any bits, or the file is at its end, and the tree stays a tree. -/
theorem state_DecodeChar_total (ht : Ready t) (hs : Inside s) :
    Reads (state_DecodeChar t s) ∧ ∀ s' t' c, state_DecodeChar t s = some (s', some (t', c)) →
      c < N_CHAR ∧ state_update t c = some t' ∧ Ready t' := by
  have hT : T = R + 1 := rfl
  obtain ⟨⟨s', x, hwalk, hs', hend⟩, hx⟩ := walk_total ht T hs (Nat.le_refl R) (by omega)
  unfold state_DecodeChar
  rw [hwalk] at hx ⊢
  cases x with
  | none => exact ⟨⟨s', none, rfl, hs', fun _ => hend rfl⟩, by simp⟩
  | some x =>
    obtain ⟨hlow, hhigh⟩ := hx s' x rfl
    obtain ⟨t', hupdate, ht', -⟩ := state_update_spec ht (c := x - T) (by omega)
    simp only [hupdate]
    refine ⟨⟨s', _, rfl, hs', by simp⟩, fun s'' t'' c hsome => ?_⟩
    obtain ⟨-, hsome⟩ := Prod.mk.inj (Option.some.inj hsome)
    obtain ⟨rfl, rfl⟩ := Prod.mk.inj (Option.some.inj hsome)
    exact ⟨by omega, hupdate, ht'⟩

end blumach.td0
