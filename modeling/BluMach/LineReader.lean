-- Reading a file in pieces: each call takes at most `n` elements and none behind a separator, and
-- only a piece that the end of the file cut short is told from the others.
import Mathlib.Data.List.Basic

namespace line_reader

variable {α : Type} [DecidableEq α] (stop : α)

/-! ## One piece -/

/-- The piece, what is behind it, and whether the end of the file was seen. -/
def next : Nat → List α → List α × List α × Bool
  | 0, file => ([], file, false)
  | _ + 1, [] => ([], [], true)
  | n + 1, c :: file =>
    if c = stop then ([c], file, false)
    else
      let (piece, file, eof) := next n file
      (c :: piece, file, eof)

variable {stop} {n : Nat} {line rest file pre : List α}

theorem next_stop (hline : stop ∉ line) (hlen : line.length < n) :
    next stop n (line ++ stop :: rest) = (line ++ [stop], rest, false) := by
  induction line generalizing n with
  | nil =>
    obtain ⟨n, rfl⟩ := Nat.exists_eq_add_of_lt hlen
    rw [List.nil_append, next, if_pos rfl]
    rfl
  | cons c line ih =>
    rw [List.mem_cons, not_or] at hline
    obtain ⟨n, rfl⟩ := Nat.exists_eq_succ_of_ne_zero (Nat.ne_zero_of_lt hlen)
    rw [List.cons_append, next, if_neg (Ne.symm hline.1),
      ih hline.2 (Nat.lt_of_succ_lt_succ hlen)]
    rfl

theorem next_full (hline : stop ∉ line) :
    next stop line.length (line ++ rest) = (line, rest, false) := by
  induction line with
  | nil => rfl
  | cons c line ih =>
    rw [List.mem_cons, not_or] at hline
    rw [List.cons_append, List.length_cons, next, if_neg (Ne.symm hline.1), ih hline.2]

theorem next_end (hline : stop ∉ line) (hlen : line.length < n) :
    next stop n line = (line, [], true) := by
  induction line generalizing n with
  | nil =>
    obtain ⟨n, rfl⟩ := Nat.exists_eq_succ_of_ne_zero (Nat.ne_zero_of_lt hlen)
    rfl
  | cons c line ih =>
    rw [List.mem_cons, not_or] at hline
    obtain ⟨n, rfl⟩ := Nat.exists_eq_succ_of_ne_zero (Nat.ne_zero_of_lt hlen)
    rw [next, if_neg (Ne.symm hline.1), ih hline.2 (Nat.lt_of_succ_lt_succ hlen)]

/-- What a call finds: a separator, a piece of full length, or the end of the file. -/
theorem next_cases (stop : α) (n : Nat) (file : List α) :
    (∃ line rest, stop ∉ line ∧ line.length < n ∧ file = line ++ stop :: rest) ∨
      (∃ line rest, stop ∉ line ∧ line.length = n ∧ file = line ++ rest) ∨
      (stop ∉ file ∧ file.length < n) := by
  induction n generalizing file with
  | zero => exact Or.inr (Or.inl ⟨[], file, List.not_mem_nil, rfl, rfl⟩)
  | succ n ih =>
    cases file with
    | nil => exact Or.inr (Or.inr ⟨List.not_mem_nil, Nat.succ_pos n⟩)
    | cons c file =>
      by_cases hc : c = stop
      · subst hc
        exact Or.inl ⟨[], file, List.not_mem_nil, Nat.succ_pos n, rfl⟩
      · have hmem {line : List α} (h : stop ∉ line) : stop ∉ c :: line := by
          rw [List.mem_cons, not_or]
          exact ⟨Ne.symm hc, h⟩
        rcases ih file with ⟨line, rest, h, hlen, rfl⟩ | ⟨line, rest, h, hlen, rfl⟩ | ⟨h, hlen⟩
        · exact Or.inl ⟨c :: line, rest, hmem h, Nat.succ_lt_succ hlen, rfl⟩
        · exact Or.inr (Or.inl ⟨c :: line, rest, hmem h, congrArg Nat.succ hlen, rfl⟩)
        · exact Or.inr (Or.inr ⟨hmem h, Nat.succ_lt_succ hlen⟩)

theorem length_next (stop : α) (n : Nat) (file : List α) : (next stop n file).1.length ≤ n := by
  rcases next_cases stop n file with
    ⟨line, rest, h, hlen, rfl⟩ | ⟨line, rest, h, rfl, rfl⟩ | ⟨h, hlen⟩
  · rw [next_stop h hlen, List.length_append]
    exact hlen
  · exact Nat.le_of_eq (congrArg (fun x => x.1.length) (next_full h))
  · rw [next_end h hlen]
    exact Nat.le_of_lt hlen

/-- A call that does not see the end leaves less of the file. -/
theorem length_rest (hn : 0 < n) (hmore : (next stop n file).2.2 = false) :
    (next stop n file).2.1.length < file.length := by
  rcases next_cases stop n file with
    ⟨line, rest, h, hlen, rfl⟩ | ⟨line, rest, h, rfl, rfl⟩ | ⟨h, hlen⟩
  · rw [next_stop h hlen, List.length_append, List.length_cons]
    exact Nat.lt_add_left _ (Nat.lt_succ_self _)
  · rw [next_full h, List.length_append]
    exact Nat.lt_add_of_pos_left hn
  · rw [next_end h hlen] at hmore
    exact absurd hmore Bool.true_eq_false.mp

/-! ## The pieces of a file -/

def pieces_within (stop : α) (n : Nat) : Nat → List α → List (List α)
  | 0, _ => []
  | fuel + 1, file =>
    let (piece, file, eof) := next stop n file
    if eof then [] else piece :: pieces_within stop n fuel file

/-- The pieces that end before the end of the file is seen. -/
def pieces (stop : α) (n : Nat) (file : List α) : List (List α) :=
  pieces_within stop n (file.length + 1) file

theorem pieces_within_succ (fuel : Nat) (file : List α) :
    pieces_within stop n (fuel + 1) file =
      if (next stop n file).2.2 then []
      else (next stop n file).1 :: pieces_within stop n fuel (next stop n file).2.1 := rfl

/-- Fuel for every element and the end of the file is enough. -/
theorem pieces_within_eq (hn : 0 < n) {fuel fuel' : Nat} (hfuel : file.length < fuel)
    (hfuel' : file.length < fuel') :
    pieces_within stop n fuel file = pieces_within stop n fuel' file := by
  induction fuel generalizing fuel' file with
  | zero => exact absurd hfuel (Nat.not_lt_zero _)
  | succ fuel ih =>
    obtain ⟨fuel', rfl⟩ := Nat.exists_eq_succ_of_ne_zero (Nat.ne_zero_of_lt hfuel')
    rw [Nat.succ_eq_add_one, pieces_within_succ, pieces_within_succ]
    by_cases heof : (next stop n file).2.2 = true
    · rw [if_pos heof, if_pos heof]
    · have hrest := length_rest hn (Bool.eq_false_iff.mpr heof)
      rw [if_neg heof, if_neg heof,
        ih (Nat.lt_of_lt_of_le hrest (Nat.le_of_lt_succ hfuel))
          (Nat.lt_of_lt_of_le hrest (Nat.le_of_lt_succ hfuel'))]

theorem pieces_eq (hn : 0 < n) (file : List α) :
    pieces stop n file =
      if (next stop n file).2.2 then []
      else (next stop n file).1 :: pieces stop n (next stop n file).2.1 := by
  rw [pieces, pieces_within_succ]
  by_cases heof : (next stop n file).2.2 = true
  · rw [if_pos heof, if_pos heof]
  · rw [if_neg heof, if_neg heof, pieces,
      pieces_within_eq hn (length_rest hn (Bool.eq_false_iff.mpr heof)) (Nat.lt_succ_self _)]

theorem pieces_stop (hline : stop ∉ line) (hlen : line.length < n) :
    pieces stop n (line ++ stop :: rest) = (line ++ [stop]) :: pieces stop n rest := by
  rw [pieces_eq (Nat.zero_lt_of_lt hlen), next_stop hline hlen]
  rfl

theorem pieces_full (hn : 0 < n) (hline : stop ∉ line) (hlen : line.length = n) :
    pieces stop n (line ++ rest) = line :: pieces stop n rest := by
  subst hlen
  rw [pieces_eq hn, next_full hline]
  rfl

theorem pieces_end (hline : stop ∉ line) (hlen : line.length < n) : pieces stop n line = [] := by
  rw [pieces_eq (Nat.zero_lt_of_lt hlen), next_end hline hlen]
  rfl

/-! ## Whole lines -/

/-- A part of a file that ends where a line does. -/
def Whole (stop : α) (pre : List α) : Prop := pre = [] ∨ pre.getLast? = some stop

omit [DecidableEq α] in
theorem whole_of_append (hpre : Whole stop (line ++ pre)) (hne : pre ≠ []) : Whole stop pre := by
  rcases hpre with h | h
  · exact absurd (List.append_eq_nil_iff.mp h).2 hne
  · right
    rwa [List.getLast?_append_of_ne_nil _ hne] at h

omit [DecidableEq α] in
/-- A part that holds no separator and ends where a line does is empty. -/
theorem eq_nil_of_whole (hpre : Whole stop pre) (hno : stop ∉ pre) : pre = [] := by
  rcases hpre with h | h
  · exact h
  · exact absurd (List.mem_of_getLast? h) hno

theorem pieces_append (hn : 0 < n) (hpre : Whole stop pre) :
    pieces stop n (pre ++ rest) = pieces stop n pre ++ pieces stop n rest := by
  induction h : pre.length using Nat.strongRecOn generalizing pre with
  | ind len ih =>
    rcases next_cases stop n pre with
      ⟨line, tail, hline, hlen, rfl⟩ | ⟨line, tail, hline, hlen, rfl⟩ | ⟨hline, hlen⟩
    · have htail : Whole stop tail := by
        by_cases hnil : tail = []
        · exact Or.inl hnil
        · refine @whole_of_append _ stop (line ++ [stop]) _ ?_ hnil
          rwa [List.append_assoc]
      have hless : tail.length < len := by
        rw [← h, List.length_append, List.length_cons]
        omega
      rw [List.append_assoc, List.cons_append, pieces_stop hline hlen, pieces_stop hline hlen,
        ih _ hless htail rfl, List.cons_append]
    · have htail : Whole stop tail := by
        by_cases hnil : tail = []
        · exact Or.inl hnil
        · exact whole_of_append hpre hnil
      have hless : tail.length < len := by
        rw [← h, List.length_append, hlen]
        omega
      rw [List.append_assoc, pieces_full hn hline hlen, pieces_full hn hline hlen,
        ih _ hless htail rfl, List.cons_append]
    · rw [eq_nil_of_whole hpre hline, pieces_end List.not_mem_nil hn]
      rfl

end line_reader
