-- Coding with a dictionary that both sides build as they go: after each code but the last, the
-- writer adds the word of that code with the next letter behind it. The reader adds the same
-- entry one code later, so that a code may name an entry that the reader does not have yet.
import Mathlib.Data.List.Basic
import Mathlib.Data.Nat.Notation

namespace dictionary_coding

/-- Letters have the codes below `first`, and the entries of the dictionary those from there on. -/
structure Alphabet (α : Type) where
  first : Nat
  code : α → Nat
  letter : Nat → α
  code_lt : ∀ a, code a < first
  letter_code : ∀ a, letter (code a) = a

variable {α : Type} (A : Alphabet α) (room : Nat)

/-- An entry is the code of all but its last letter, and that letter. -/
abbrev Dict (α : Type) := List (Nat × α)

/-! ## Words -/

/-- The word of a code. -/
inductive Spells (d : Dict α) : Nat → List α → Prop
  | letter {k : Nat} (hk : k < A.first) : Spells d k [A.letter k]
  | entry {i k : Nat} {a : α} {w : List α} (hi : d[i]? = some (k, a)) (hw : Spells d k w) :
      Spells d (A.first + i) (w ++ [a])

variable {A} {d e : Dict α} {k : Nat} {w v : List α}

theorem Spells.lt (h : Spells A d k w) : k < A.first + d.length := by
  cases h with
  | letter hk => exact Nat.lt_add_right _ hk
  | entry hi =>
    obtain ⟨hlt, -⟩ := List.getElem?_eq_some_iff.mp hi
    exact Nat.add_lt_add_left hlt _

theorem Spells.append (h : Spells A d k w) : Spells A (d ++ e) k w := by
  induction h with
  | letter hk => exact .letter hk
  | entry hi _ ih =>
    obtain ⟨hlt, -⟩ := List.getElem?_eq_some_iff.mp hi
    exact .entry (by rw [List.getElem?_append_left hlt, hi]) ih

theorem Spells.unique (h : Spells A d k w) (h' : Spells A d k v) : w = v := by
  induction h generalizing v with
  | letter hk =>
    cases h' with
    | letter => rfl
    | entry => omega
  | @entry i k a w hi hw ih =>
    generalize hn : A.first + i = n at h'
    cases h' with
    | letter hk => omega
    | @entry j k' a' w' hj hw' =>
      obtain rfl : i = j := by omega
      obtain ⟨rfl, rfl⟩ := Prod.mk.inj (Option.some.inj (hi.symm.trans hj))
      rw [ih hw']

/-- The codes in an entry are older than the entry. -/
def Closed (A : Alphabet α) (d : Dict α) : Prop :=
  ∀ i k a, d[i]? = some (k, a) → k < A.first + i

theorem Closed.spells (hd : Closed A d) (hk : k < A.first + d.length) : ∃ w, Spells A d k w := by
  induction k using Nat.strongRecOn with
  | ind k ih =>
    by_cases hletter : k < A.first
    · exact ⟨_, .letter hletter⟩
    · obtain ⟨i, rfl⟩ := Nat.exists_eq_add_of_le (Nat.le_of_not_lt hletter)
      have hi : i < d.length := Nat.lt_of_add_lt_add_left hk
      have hget : d[i]? = some (d[i].1, d[i].2) := List.getElem?_eq_getElem hi
      have hold := hd i _ _ hget
      obtain ⟨w, hw⟩ := ih _ hold (Nat.lt_trans hold (Nat.add_lt_add_left hi _))
      exact ⟨_, .entry hget hw⟩

/-- Each entry is longer by a letter than an older word. -/
theorem Closed.length_le (hd : Closed A d) (h : Spells A d k w) :
    w.length = 1 ∨ A.first + w.length ≤ k + 2 := by
  induction h with
  | letter => exact .inl rfl
  | entry hi _ ih =>
    have hold := hd _ _ _ hi
    rw [List.length_append, List.length_singleton]
    omega

/-! ## Growth -/

/-- The dictionary with one entry more, while there is room. -/
def grow (room : Nat) (d : Dict α) (x : Nat × α) : Dict α :=
  if d.length < room then d ++ [x] else d

variable {room} {x : Nat × α}

theorem length_grow_le (h : d.length ≤ room) : (grow room d x).length ≤ room := by
  unfold grow
  split
  · simp
    omega
  · exact h

theorem Spells.grow (h : Spells A d k w) : Spells A (grow room d x) k w := by
  unfold dictionary_coding.grow
  split
  · exact h.append
  · exact h

theorem Closed.grow (hd : Closed A d) (hx : x.1 < A.first + d.length) :
    Closed A (grow room d x) := by
  unfold dictionary_coding.grow
  split
  · intro i k a hi
    rw [List.getElem?_append] at hi
    split at hi
    · exact hd i k a hi
    · rename_i hlt
      rw [List.getElem?_singleton] at hi
      split at hi
      · obtain ⟨rfl, rfl⟩ := Prod.mk.inj (Option.some.inj hi)
        omega
      · simp at hi
  · exact hd

/-! ## The writer -/

/-- What was written, the dictionary, and the code of what waits. -/
structure Writer (α : Type) where
  codes : List Nat
  dict : Dict α
  cur : Nat

/-- A writer goes over the letters: it lengthens what waits to a word that it has, or it writes
the code of what waits. -/
inductive Writes (A : Alphabet α) (room : Nat) : List α → Writer α → Prop
  | start (a : α) : Writes A room [a] ⟨[], [], A.code a⟩
  | longer {xs : List α} {s : Writer α} {i : Nat} {a : α} (h : Writes A room xs s)
      (hi : s.dict[i]? = some (s.cur, a)) :
      Writes A room (xs ++ [a]) ⟨s.codes, s.dict, A.first + i⟩
  | write {xs : List α} {s : Writer α} (h : Writes A room xs s) (a : α) :
      Writes A room (xs ++ [a]) ⟨s.codes ++ [s.cur], grow room s.dict (s.cur, a), A.code a⟩

theorem Writes.ne_nil {xs : List α} {s : Writer α} (h : Writes A room xs s) : xs ≠ [] := by
  cases h <;> simp

/-! ## The reader -/

/-- What was read, the dictionary, the last code, and the first letter of its word. -/
structure Reader (α : Type) where
  out : List α
  dict : Dict α
  last : Nat
  head : α

inductive Reads (A : Alphabet α) (room : Nat) : List Nat → Reader α → Prop
  | start {k : Nat} (hk : k < A.first) : Reads A room [k] ⟨[A.letter k], [], k, A.letter k⟩
  | known {ks : List Nat} {s : Reader α} {k : Nat} {a : α} {w : List α} (h : Reads A room ks s)
      (hk : k < A.first + s.dict.length) (hw : Spells A s.dict k (a :: w)) :
      Reads A room (ks ++ [k]) ⟨s.out ++ a :: w, grow room s.dict (s.last, a), k, a⟩
  /-- The entry is the next one: its word is the last one with its own first letter behind. -/
  | unknown {ks : List Nat} {s : Reader α} {a : α} {w : List α} (h : Reads A room ks s)
      (hroom : s.dict.length < room) (hw : Spells A s.dict s.last (a :: w)) :
      Reads A room (ks ++ [A.first + s.dict.length])
        ⟨s.out ++ (a :: w) ++ [s.head], grow room s.dict (s.last, a), A.first + s.dict.length, a⟩

/-- The last code has a word, and the dictionary is closed. -/
theorem Reads.good {ks : List Nat} {s : Reader α} (h : Reads A room ks s) :
    Closed A s.dict ∧ ∃ w, Spells A s.dict s.last (s.head :: w) := by
  induction h with
  | start hk => exact ⟨fun i k a hi => by simp at hi, [], .letter hk⟩
  | @known ks s k a w h hk hw ih =>
    obtain ⟨hclosed, v, hv⟩ := ih
    exact ⟨hclosed.grow hv.lt, w, hw.grow⟩
  | @unknown ks s a w h hroom hw ih =>
    obtain ⟨hclosed, v, hv⟩ := ih
    refine ⟨hclosed.grow hv.lt, w ++ [a], ?_⟩
    refine .entry (w := a :: w) ?_ hw.grow
    unfold dictionary_coding.grow
    rw [if_pos hroom]
    simp

theorem Reads.length_dict {ks : List Nat} {s : Reader α} (h : Reads A room ks s) :
    s.dict.length ≤ room := by
  induction h with
  | start => exact Nat.zero_le _
  | known _ _ _ ih => exact length_grow_le ih
  | unknown _ _ _ ih => exact length_grow_le ih

/-! ## Both together -/

/-- The reader of what was written is one entry behind the writer, and lacks what waits. -/
structure Follows (A : Alphabet α) (room : Nat) (xs : List α) (s : Writer α) (r : Reader α) :
    Prop where
  reads : Reads A room s.codes r
  waits : ∃ a w, Spells A s.dict s.cur (a :: w) ∧ xs = r.out ++ a :: w ∧
    s.dict = grow room r.dict (r.last, a)

/-- Nothing was written yet, or a reader follows. -/
def Agrees (A : Alphabet α) (room : Nat) (xs : List α) (s : Writer α) : Prop :=
  (∃ a, xs = [a] ∧ s = ⟨[], [], A.code a⟩) ∨ ∃ r, Follows A room xs s r

theorem spells_code (a : α) : Spells A d (A.code a) [a] := by
  have h := Spells.letter (d := d) (A.code_lt a)
  rwa [A.letter_code] at h

/-- A reader that also reads the code of what waits has all the letters, and every entry. -/
theorem Follows.flush {xs : List α} {s : Writer α} {r : Reader α} (h : Follows A room xs s r) :
    ∃ r', Reads A room (s.codes ++ [s.cur]) r' ∧ r'.out = xs ∧ r'.dict = s.dict ∧
      r'.last = s.cur := by
  obtain ⟨a, w, hcur, rfl, hdict⟩ := h.waits
  obtain ⟨hclosed, v, hlast⟩ := h.reads.good
  by_cases hknown : s.cur < A.first + r.dict.length
  · have hold : Spells A r.dict s.cur (a :: w) := by
      obtain ⟨u, hu⟩ := hclosed.spells hknown
      have hu' : Spells A s.dict s.cur u := by
        rw [hdict]
        exact hu.grow
      rwa [hcur.unique hu']
    exact ⟨_, .known h.reads hknown hold, rfl, hdict.symm, rfl⟩
  · -- the code names the entry that the writer added last
    obtain ⟨hroom, hnew⟩ : r.dict.length < room ∧ s.dict = r.dict ++ [(r.last, a)] := by
      have hlt := hcur.lt
      rw [hdict] at hlt ⊢
      unfold dictionary_coding.grow at hlt ⊢
      split at hlt
      · exact ⟨‹_›, by rw [if_pos ‹_›]⟩
      · exact absurd hlt hknown
    have hplace : s.cur = A.first + r.dict.length := by
      have hlt := hcur.lt
      rw [hnew, List.length_append, List.length_singleton] at hlt
      omega
    have hword : Spells A s.dict s.cur ((r.head :: v) ++ [a]) := by
      have hprev : Spells A s.dict r.last (r.head :: v) := by
        rw [hnew]
        exact hlast.append
      rw [hplace]
      refine .entry ?_ hprev
      rw [hnew]
      simp
    have hsame := hcur.unique hword
    rw [List.cons_append, List.cons.injEq] at hsame
    obtain ⟨rfl, rfl⟩ := hsame
    rw [hplace]
    exact ⟨_, .unknown h.reads hroom hlast, by simp, hdict.symm, rfl⟩

theorem Agrees.flush {xs : List α} {s : Writer α} (h : Agrees A room xs s) :
    ∃ r', Reads A room (s.codes ++ [s.cur]) r' ∧ r'.out = xs ∧ r'.dict = s.dict ∧
      r'.last = s.cur := by
  rcases h with ⟨a, rfl, rfl⟩ | ⟨r, h⟩
  · have hreads :
        Reads A room [A.code a] ⟨[A.letter (A.code a)], [], A.code a, A.letter (A.code a)⟩ :=
      .start (A.code_lt a)
    rw [A.letter_code] at hreads
    exact ⟨_, hreads, rfl, rfl, rfl⟩
  · exact h.flush

theorem agrees_of_writes {xs : List α} {s : Writer α} (h : Writes A room xs s) :
    Agrees A room xs s := by
  induction h with
  | start a => exact .inl ⟨a, rfl, rfl⟩
  | @longer xs s i a h hi ih =>
    rcases ih with ⟨b, -, rfl⟩ | ⟨r, hr⟩
    · simp at hi
    · obtain ⟨b, w, hcur, rfl, hdict⟩ := hr.waits
      exact .inr ⟨r, hr.reads, b, w ++ [a], .entry hi hcur, by simp, hdict⟩
  | @write xs s h a ih =>
    obtain ⟨r, hreads, rfl, hdict, hlast⟩ := ih.flush
    exact .inr ⟨r, hreads, a, [], spells_code a, rfl, by simp only [hdict, hlast]⟩

/-- What was written, with the code of what waits, is read back. -/
theorem reads_of_writes {xs : List α} {s : Writer α} (h : Writes A room xs s) :
    ∃ r, Reads A room (s.codes ++ [s.cur]) r ∧ r.out = xs := by
  obtain ⟨r, hreads, hout, -⟩ := (agrees_of_writes h).flush
  exact ⟨r, hreads, hout⟩

/-! ## Bounds -/

theorem Writes.bounds {xs : List α} {s : Writer α} (h : Writes A room xs s) :
    s.dict.length ≤ room ∧ s.cur < A.first + room ∧ ∀ k ∈ s.codes, k < A.first + room := by
  induction h with
  | start a => exact ⟨Nat.zero_le _, Nat.lt_add_right _ (A.code_lt a), by simp⟩
  | longer h hi ih =>
    obtain ⟨hd, -, hks⟩ := ih
    obtain ⟨hlt, -⟩ := List.getElem?_eq_some_iff.mp hi
    exact ⟨hd, Nat.add_lt_add_left (Nat.lt_of_lt_of_le hlt hd) _, hks⟩
  | write h a ih =>
    obtain ⟨hd, hcur, hks⟩ := ih
    refine ⟨length_grow_le hd, Nat.lt_add_right _ (A.code_lt a), fun k hk => ?_⟩
    rcases List.mem_append.mp hk with hk | hk
    · exact hks k hk
    · rw [List.mem_singleton.mp hk]
      exact hcur

end dictionary_coding
