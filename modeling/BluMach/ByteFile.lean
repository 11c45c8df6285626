-- A file with a position, as a function on its bytes: what is read, what a write changes, and what
-- it leaves alone.
import BluMach.Buffers
import Mathlib.Data.List.GetD

namespace byte_file

open buffers

/-- The bytes count below the size. -/
structure File where
  size : Nat
  data : Nat → BitVec 8
  pos : Nat

namespace File

variable {f : File} {n : Nat} {xs : List (BitVec 8)}

def seek (f : File) (o : Nat) : File := { f with pos := o }

def seekCur (f : File) (n : Nat) : File := { f with pos := f.pos + n }

/-- So many bytes before the end; the position stays where it is when there are fewer. -/
def seekEnd (f : File) (back : Nat) : File :=
  if back ≤ f.size then { f with pos := f.size - back } else f

/-- One item of so many bytes: what there is of it, and if all of it is there. -/
def fread (f : File) (n : Nat) : File × List (BitVec 8) × Bool :=
  ({ f with pos := f.pos + min n (f.size - f.pos) }, slice f.data f.pos (min n (f.size - f.pos)),
    decide (0 < n ∧ n ≤ f.size - f.pos))

/-- A gap before the write is filled with zeroes. -/
def fwrite (f : File) (xs : List (BitVec 8)) : File :=
  if xs = [] then f
  else
    { size := max f.size (f.pos + xs.length)
      data := fun i =>
        if f.pos ≤ i ∧ i < f.pos + xs.length then xs.getD (i - f.pos) 0
        else if f.size ≤ i then 0
        else f.data i
      pos := f.pos + xs.length }

@[simp] theorem seek_size (f : File) (o : Nat) : (f.seek o).size = f.size := rfl

@[simp] theorem seek_data (f : File) (o : Nat) : (f.seek o).data = f.data := rfl

@[simp] theorem seek_pos (f : File) (o : Nat) : (f.seek o).pos = o := rfl

@[simp] theorem seek_seek (f : File) (o o' : Nat) : (f.seek o).seek o' = f.seek o' := rfl

@[simp] theorem seekCur_size (f : File) (n : Nat) : (f.seekCur n).size = f.size := rfl

@[simp] theorem seekCur_data (f : File) (n : Nat) : (f.seekCur n).data = f.data := rfl

@[simp] theorem seekCur_pos (f : File) (n : Nat) : (f.seekCur n).pos = f.pos + n := rfl

theorem seekEnd_eq {back : Nat} (h : back ≤ f.size) : f.seekEnd back = f.seek (f.size - back) :=
  if_pos h

/-- What is inside of the file is read as it is. -/
theorem fread_eq (hn : 0 < n) (h : f.pos + n ≤ f.size) :
    f.fread n = (f.seek (f.pos + n), slice f.data f.pos n, true) := by
  have hmin : min n (f.size - f.pos) = n := by omega
  have hall : 0 < n ∧ n ≤ f.size - f.pos := by omega
  unfold fread seek
  rw [hmin, decide_eq_true hall]

@[simp] theorem fwrite_pos (f : File) (xs : List (BitVec 8)) :
    (f.fwrite xs).pos = f.pos + xs.length := by
  unfold fwrite
  split
  · next hnil => simp [hnil]
  · rfl

theorem fwrite_size_inside (h : f.pos + xs.length ≤ f.size) : (f.fwrite xs).size = f.size := by
  unfold fwrite
  split
  · rfl
  · exact Nat.max_eq_left h

theorem fwrite_size_end (h : f.pos = f.size) : (f.fwrite xs).size = f.size + xs.length := by
  unfold fwrite
  split
  · next hnil => simp [hnil]
  · simp only [h]
    omega

/-- What is written stands in the file. -/
theorem fwrite_has (f : File) (xs : List (BitVec 8)) : Has (f.fwrite xs).data f.pos xs := by
  intro j hj
  unfold fwrite
  rw [if_neg (List.ne_nil_of_length_pos (Nat.zero_lt_of_lt hj))]
  simp only
  rw [if_pos (by omega), Nat.add_sub_cancel_left, List.getD_eq_getElem _ _ hj]

/-- What is outside of a write is as it was. -/
theorem fwrite_outside {i : Nat} (hi : i < f.size) (h : i < f.pos ∨ f.pos + xs.length ≤ i) :
    (f.fwrite xs).data i = f.data i := by
  unfold fwrite
  split
  · rfl
  · simp only
    rw [if_neg (by omega), if_neg (by omega)]

theorem has_fwrite_outside {p : Nat} {ys : List (BitVec 8)} (h : Has f.data p ys)
    (hin : p + ys.length ≤ f.size)
    (hout : p + ys.length ≤ f.pos ∨ f.pos + xs.length ≤ p) : Has (f.fwrite xs).data p ys :=
  h.congr fun _ _ _ => fwrite_outside (by omega) (by omega)

end File

end byte_file
