-- A stream of the C library over a file: what is written waits in the buffer of the stream until
-- the next seek or until the stream is closed. The length of the file can be set behind its back.
import BluMach.LittleEndian
import Mathlib.Data.List.Basic

namespace file_stream

open little_endian

/-! ## Bytes in a file -/

/-- The `n` low bytes of a number. -/
def bytesOf (n v : Nat) : List (BitVec 8) := (List.range n).map (byteAt v)

/-- The number that the bytes stand for. -/
def join : List (BitVec 8) → Nat
  | [] => 0
  | b :: l => b.toNat + 256 * join l

def zeros (n : Nat) : List (BitVec 8) := List.replicate n 0

/-- The file after a write at a place, with zeroes where nothing was before it. -/
def writeAt (o : Nat) (d file : List (BitVec 8)) : List (BitVec 8) :=
  file.take o ++ zeros (o - file.length) ++ d ++ file.drop (o + d.length)

/-- The file cut to a length, or filled up to it. -/
def resize (n : Nat) (file : List (BitVec 8)) : List (BitVec 8) :=
  file.take n ++ zeros (n - file.length)

/-! ## Streams -/

/-- The file, the position, and what was written up to the position and waits. -/
structure Stream where
  file : List (BitVec 8)
  pos : Nat
  pending : List (BitVec 8)

/-- A stream at the start of a file. -/
def Stream.start (file : List (BitVec 8)) : Stream := ⟨file, 0, []⟩

/-- What the file has once nothing waits. -/
def Stream.contents (s : Stream) : List (BitVec 8) :=
  if s.pending = [] then s.file else writeAt (s.pos - s.pending.length) s.pending s.file

def Stream.fwrite (d : List (BitVec 8)) (s : Stream) : Stream :=
  { s with pos := s.pos + d.length, pending := s.pending ++ d }

def Stream.seek (o : Nat) (s : Stream) : Stream := ⟨s.contents, o, []⟩

def Stream.seekEnd (s : Stream) : Stream := s.seek s.contents.length

/-- The length of the file, below the stream. It is a signed number of 64 bits. -/
def Stream.ftruncate (n : Nat) (s : Stream) : Option Stream :=
  if n < 2 ^ 63 then some { s with file := resize n s.file } else none

/-- A number of `n` bytes, if the file has them. -/
def Stream.fread (n : Nat) (s : Stream) : Option (Nat × Stream) :=
  if s.pos + n ≤ s.contents.length then
    some (join ((s.contents.drop s.pos).take n), s.seek (s.pos + n))
  else none

/-- What a read would find. -/
def Stream.ahead (s : Stream) : List (BitVec 8) := s.contents.drop s.pos

/-! ## Numbers -/

section

variable {n v : Nat}

theorem bytesOf_length (n v : Nat) : (bytesOf n v).length = n := by
  unfold bytesOf
  rw [List.length_map, List.length_range]

theorem bytesOf_succ (n v : Nat) : bytesOf (n + 1) v = byteAt v 0 :: bytesOf n (v / 256) := by
  unfold bytesOf
  rw [List.range_succ_eq_map, List.map_cons, List.map_map]
  congr 1
  apply List.map_congr_left
  intro i _
  exact byteAt_succ i

theorem join_bytesOf (n v : Nat) : join (bytesOf n v) = v % 256 ^ n := by
  induction n generalizing v with
  | zero =>
    rw [pow_zero, Nat.mod_one]
    rfl
  | succ n ih =>
    have hbyte : (byteAt v 0).toNat = v % 256 := by
      rw [byteAt_zero, BitVec.toNat_ofNat]
    rw [bytesOf_succ]
    unfold join
    rw [ih, hbyte, Nat.pow_succ', Nat.mod_mul]

end

/-! ## Lengths -/

theorem zeros_length (n : Nat) : (zeros n).length = n := List.length_replicate

theorem resize_length (n : Nat) (file : List (BitVec 8)) : (resize n file).length = n := by
  unfold resize
  rw [List.length_append, List.length_take, zeros_length]
  omega

theorem writeAt_zero (d file : List (BitVec 8)) : writeAt 0 d file = d ++ file.drop d.length := by
  unfold writeAt
  simp [zeros]

theorem writeAt_end (d file : List (BitVec 8)) : writeAt file.length d file = file ++ d := by
  unfold writeAt
  simp [zeros]

/-! ## What a stream has written -/

section

variable {s : Stream}

theorem contents_start (file : List (BitVec 8)) : (Stream.start file).contents = file := by
  unfold Stream.contents Stream.start
  rw [if_pos rfl]

theorem contents_seek (o : Nat) : (s.seek o).contents = s.contents := by
  unfold Stream.seek
  rw [Stream.contents, if_pos rfl]

/-- At the end of the file a write appends. -/
theorem contents_append (d : List (BitVec 8)) :
    (s.seekEnd.fwrite d).contents = s.contents ++ d := by
  unfold Stream.seekEnd Stream.seek Stream.fwrite
  rw [Stream.contents]
  dsimp only
  by_cases hd : d = []
  · subst hd
    simp
  · rw [List.nil_append, if_neg hd, Nat.add_sub_cancel, writeAt_end]

theorem fread_some {n : Nat} (h : s.pos + n ≤ s.contents.length) :
    ∃ t, s.fread n = some (join ((s.contents.drop s.pos).take n), t) ∧
      t.contents = s.contents ∧ t.pos = s.pos + n := by
  unfold Stream.fread
  rw [if_pos h]
  exact ⟨_, rfl, contents_seek _, rfl⟩

theorem fread_contents {n v : Nat} {t : Stream} (h : s.fread n = some (v, t)) :
    t.contents = s.contents := by
  unfold Stream.fread at h
  split_ifs at h
  obtain ⟨-, rfl⟩ := Prod.mk.inj (Option.some.inj h)
  exact contents_seek _

theorem seek_ahead {front rest : List (BitVec 8)} (h : s.contents = front ++ rest) :
    (s.seek front.length).ahead = rest := by
  unfold Stream.ahead
  rw [contents_seek, h]
  exact List.drop_left

/-- A number that was written in front of the rest is read back, as far as its bytes hold it. -/
theorem fread_ahead {n v : Nat} {rest : List (BitVec 8)} (hn : 0 < n)
    (h : s.ahead = bytesOf n v ++ rest) :
    ∃ t, s.fread n = some (v % 256 ^ n, t) ∧ t.contents = s.contents ∧ t.ahead = rest := by
  unfold Stream.ahead at h
  have hlen : (s.contents.drop s.pos).length = n + rest.length := by
    rw [h, List.length_append, bytesOf_length]
  have htake : (s.contents.drop s.pos).take n = bytesOf n v := by
    rw [h]
    exact List.take_left' (bytesOf_length n v)
  have hrest : s.contents.drop (s.pos + n) = rest := by
    rw [← List.drop_drop, h]
    exact List.drop_left' (bytesOf_length n v)
  rw [List.length_drop] at hlen
  obtain ⟨t, ht, hcontents, hpos⟩ := fread_some (show s.pos + n ≤ s.contents.length by omega)
  refine ⟨t, ?_, hcontents, ?_⟩
  · rw [ht, htake, join_bytesOf]
  · unfold Stream.ahead
    rw [hcontents, hpos, hrest]

end

end file_stream
