-- The decoder of compressed TeleDisk images in `floppy/fdd_td0.c`: characters and copies, coded
-- with a tree that changes with the text. A result of `none` is a loop that does not end, a load
-- outside of `inbuf`, or a place that `scan`, `findPlace` or `walk` looks for outside of `freq` or
-- `son`. The other indices are those of loops with a bound, are masked, or are links of the tree,
-- and these are bounded where the tree is `Ready`.
import BluMach.SiblingTree
import Mathlib.Data.BitVec
import Mathlib.Logic.Function.Basic

namespace blumach.td0

open sibling_tree

def BUFSZ : Nat := 512

def N : Nat := 4096

def F : Nat := 60

def THRESHOLD : Nat := 2

def N_CHAR : Nat := 256 - THRESHOLD + F

def T : Nat := N_CHAR * 2 - 1

def R : Nat := T - 1

def MAX_FREQ : Nat := 0x8000

/-! ## The tree -/

/-- A leaf. -/
def startLeaf (t : Nodes) (i : Nat) : Nodes :=
  { freq := Function.update t.freq i 1
    son := Function.update t.son i (i + T)
    prnt := Function.update t.prnt (i + T) i }

def startNodes (i j : Nat) (t : Nodes) : Nodes :=
  if j ≤ R then
    startNodes (i + 2) (j + 1)
      { freq := Function.update t.freq j ((t.freq i + t.freq (i + 1)) % 0x10000)
        son := Function.update t.son j i
        prnt := Function.update (Function.update t.prnt (i + 1) j) i j }
  else t
termination_by R + 1 - j

def state_StartHuff (t : Nodes) : Nodes :=
  let t := startNodes 0 N_CHAR ((List.range N_CHAR).foldl startLeaf t)
  { t with freq := Function.update t.freq T 0xffff, prnt := Function.update t.prnt R 0 }

/-- The leaves come to the front, with half their frequencies. -/
def halve (i j : Nat) (t : Nodes) : Nodes :=
  if i < T then
    if t.son i ≥ T then
      halve (i + 1) (j + 1)
        { t with
          freq := Function.update t.freq j ((t.freq i + 1) / 2)
          son := Function.update t.son j (t.son i) }
    else halve (i + 1) j t
  else t
termination_by T - i

/-- The place behind the last frequency below `k` that is not larger. -/
def findPlace (freq : Nat → Nat) (f : Nat) : Nat → Option Nat
  | 0 => none
  | k + 1 => if f < freq k then findPlace freq f k else some (k + 1)

/-- A `memmove` of `n` elements to the place behind. -/
def moveUp (a : Nat → Nat) (k n : Nat) : Nat → Nat :=
  fun x => if k + 1 ≤ x ∧ x < k + 1 + n then a (x - 1) else a x

def connect (i j : Nat) (t : Nodes) : Option Nodes :=
  if j < T then
    let f := (t.freq i + t.freq (i + 1)) % 0x10000
    let freq := Function.update t.freq j f
    match findPlace freq f j with
    | none => none
    | some k =>
      connect (i + 2) (j + 1)
        { t with
          freq := Function.update (moveUp freq k (j - k)) k f
          son := Function.update (moveUp t.son k (j - k)) k i }
  else some t
termination_by T - j

def connectParents (t : Nodes) (i : Nat) : Nodes :=
  let k := t.son i
  if k ≥ T then { t with prnt := Function.update t.prnt k i }
  else { t with prnt := Function.update (Function.update t.prnt (k + 1) i) k i }

def state_reconst (t : Nodes) : Option Nodes :=
  (connect 0 N_CHAR (halve 0 0 t)).map fun t => (List.range T).foldl connectParents t

/-- The first place behind `l` where `k` is not larger. -/
def scan (freq : Nat → Nat) (k l : Nat) : Option Nat :=
  if l + 1 > T then none
  else if k > freq (l + 1) then scan freq k (l + 1)
  else some (l + 1)
termination_by T - l

/-- Two nodes change places. -/
def swapNodes (c l k : Nat) (t : Nodes) : Nodes :=
  let freq := Function.update (Function.update t.freq c (t.freq l)) l k
  let i := t.son c
  let prnt := Function.update t.prnt i l
  let prnt := if i < T then Function.update prnt (i + 1) l else prnt
  let j := t.son l
  let son := Function.update t.son l i
  let prnt := Function.update prnt j c
  let prnt := if j < T then Function.update prnt (j + 1) c else prnt
  { freq, son := Function.update son c j, prnt }

/-- One more for a node, and where it is then. -/
def growNode (t : Nodes) (c : Nat) : Option (Nodes × Nat) :=
  let k := (t.freq c + 1) % 0x10000
  let t := { t with freq := Function.update t.freq c k }
  if k > t.freq (c + 1) then
    match scan t.freq k (c + 1) with
    | none => none
    | some l => some (swapNodes c (l - 1) k t, l - 1)
  else some (t, c)

/-- The way to the root, of at most so many nodes. -/
def climb : Nat → Nodes → Nat → Option Nodes
  | 0, _, _ => none
  | fuel + 1, t, c =>
    match growNode t c with
    | none => none
    | some (t, c) => if t.prnt c ≠ 0 then climb fuel t (t.prnt c) else some t

def state_update (t : Nodes) (c : Nat) : Option Nodes :=
  match if t.freq R = MAX_FREQ then state_reconst t else some t with
  | none => none
  | some t => climb T t (t.prnt (c + T))

/-! ## Bits -/

structure Input where
  fdd_file : List (BitVec 8)
  fdd_file_offset : Nat
  ibufcnt : Nat
  ibufndx : Nat
  inbuf : Nat → BitVec 8
  getbuf : BitVec 16
  getlen : Nat

def state_data_read (s : Input) (size : Nat) : Input × Nat :=
  let size := if size > s.fdd_file.length - s.fdd_file_offset then
    s.fdd_file.length - s.fdd_file_offset else size
  ({ s with
      inbuf := fun i => if i < size then s.fdd_file.getD (s.fdd_file_offset + i) 0 else s.inbuf i
      fdd_file_offset := s.fdd_file_offset + size }, size)

/-- A load outside of `inbuf` has no value. -/
def Input.load (s : Input) (i : Nat) : Option (BitVec 8) :=
  if i < BUFSZ then some (s.inbuf i) else none

/-- A byte goes behind the bits that are there. -/
def takeByte (s : Input) (x : BitVec 8) : Input :=
  { s with
    getbuf := s.getbuf ||| (x.zeroExtend 16 <<< (8 - s.getlen))
    ibufndx := s.ibufndx + 1
    getlen := s.getlen + 8 }

def fill (s : Input) : Option Input :=
  if s.getlen ≤ 8 then
    match s.load s.ibufndx with
    | none => none
    | some x => fill (takeByte s x)
  else some s
termination_by 9 - s.getlen
decreasing_by
  simp only [takeByte]
  omega

/-- A result of `false` is the end of the file. -/
def state_next_word (s : Input) : Option (Input × Bool) :=
  if s.ibufndx ≥ s.ibufcnt then
    let (s, ibufcnt) := state_data_read { s with ibufndx := 0 } BUFSZ
    let s := { s with ibufcnt }
    if ibufcnt = 0 then some (s, false) else (fill s).map fun s => (s, true)
  else (fill s).map fun s => (s, true)

def state_GetBit (s : Input) : Option (Input × Option Bool) :=
  match state_next_word s with
  | none => none
  | some (s, false) => some (s, none)
  | some (s, true) =>
    some ({ s with getbuf := s.getbuf <<< 1, getlen := s.getlen - 1 }, some s.getbuf.msb)

def state_GetByte (s : Input) : Option (Input × Option (BitVec 8)) :=
  match state_next_word s with
  | none => none
  | some (s, false) => some (s, none)
  | some (s, true) =>
    some ({ s with getbuf := s.getbuf <<< 8, getlen := s.getlen - 8 },
      some ((s.getbuf >>> 8).truncate 8))

/-! ## Characters and copies -/

/-- From a son to a leaf, over at most so many nodes. -/
def walk (t : Nodes) : Nat → Input → Nat → Option (Input × Option Nat)
  | 0, _, _ => none
  | fuel + 1, s, c =>
    if c < T then
      match state_GetBit s with
      | none => none
      | some (s, none) => some (s, none)
      | some (s, some bit) =>
        if c + bit.toNat < T then walk t fuel s (t.son (c + bit.toNat)) else none
    else some (s, some c)

def state_DecodeChar (t : Nodes) (s : Input) : Option (Input × Option (Nodes × Nat)) :=
  match walk t T s (t.son R) with
  | none => none
  | some (s, none) => some (s, none)
  | some (s, some c) =>
    match state_update t (c - T) with
    | none => none
    | some t => some (s, some (t, c - T))

def d_code : List Nat :=
  [0x00, 0x00, 0x00, 0x00, 0x00, 0x00, 0x00, 0x00, 0x00, 0x00, 0x00, 0x00, 0x00, 0x00, 0x00, 0x00,
   0x00, 0x00, 0x00, 0x00, 0x00, 0x00, 0x00, 0x00, 0x00, 0x00, 0x00, 0x00, 0x00, 0x00, 0x00, 0x00,
   0x01, 0x01, 0x01, 0x01, 0x01, 0x01, 0x01, 0x01, 0x01, 0x01, 0x01, 0x01, 0x01, 0x01, 0x01, 0x01,
   0x02, 0x02, 0x02, 0x02, 0x02, 0x02, 0x02, 0x02, 0x02, 0x02, 0x02, 0x02, 0x02, 0x02, 0x02, 0x02,
   0x03, 0x03, 0x03, 0x03, 0x03, 0x03, 0x03, 0x03, 0x03, 0x03, 0x03, 0x03, 0x03, 0x03, 0x03, 0x03,
   0x04, 0x04, 0x04, 0x04, 0x04, 0x04, 0x04, 0x04, 0x05, 0x05, 0x05, 0x05, 0x05, 0x05, 0x05, 0x05,
   0x06, 0x06, 0x06, 0x06, 0x06, 0x06, 0x06, 0x06, 0x07, 0x07, 0x07, 0x07, 0x07, 0x07, 0x07, 0x07,
   0x08, 0x08, 0x08, 0x08, 0x08, 0x08, 0x08, 0x08, 0x09, 0x09, 0x09, 0x09, 0x09, 0x09, 0x09, 0x09,
   0x0A, 0x0A, 0x0A, 0x0A, 0x0A, 0x0A, 0x0A, 0x0A, 0x0B, 0x0B, 0x0B, 0x0B, 0x0B, 0x0B, 0x0B, 0x0B,
   0x0C, 0x0C, 0x0C, 0x0C, 0x0D, 0x0D, 0x0D, 0x0D, 0x0E, 0x0E, 0x0E, 0x0E, 0x0F, 0x0F, 0x0F, 0x0F,
   0x10, 0x10, 0x10, 0x10, 0x11, 0x11, 0x11, 0x11, 0x12, 0x12, 0x12, 0x12, 0x13, 0x13, 0x13, 0x13,
   0x14, 0x14, 0x14, 0x14, 0x15, 0x15, 0x15, 0x15, 0x16, 0x16, 0x16, 0x16, 0x17, 0x17, 0x17, 0x17,
   0x18, 0x18, 0x19, 0x19, 0x1A, 0x1A, 0x1B, 0x1B, 0x1C, 0x1C, 0x1D, 0x1D, 0x1E, 0x1E, 0x1F, 0x1F,
   0x20, 0x20, 0x21, 0x21, 0x22, 0x22, 0x23, 0x23, 0x24, 0x24, 0x25, 0x25, 0x26, 0x26, 0x27, 0x27,
   0x28, 0x28, 0x29, 0x29, 0x2A, 0x2A, 0x2B, 0x2B, 0x2C, 0x2C, 0x2D, 0x2D, 0x2E, 0x2E, 0x2F, 0x2F,
   0x30, 0x31, 0x32, 0x33, 0x34, 0x35, 0x36, 0x37, 0x38, 0x39, 0x3A, 0x3B, 0x3C, 0x3D, 0x3E, 0x3F]

def d_len : List Nat :=
  [0x03, 0x03, 0x03, 0x03, 0x03, 0x03, 0x03, 0x03, 0x03, 0x03, 0x03, 0x03, 0x03, 0x03, 0x03, 0x03,
   0x03, 0x03, 0x03, 0x03, 0x03, 0x03, 0x03, 0x03, 0x03, 0x03, 0x03, 0x03, 0x03, 0x03, 0x03, 0x03,
   0x04, 0x04, 0x04, 0x04, 0x04, 0x04, 0x04, 0x04, 0x04, 0x04, 0x04, 0x04, 0x04, 0x04, 0x04, 0x04,
   0x04, 0x04, 0x04, 0x04, 0x04, 0x04, 0x04, 0x04, 0x04, 0x04, 0x04, 0x04, 0x04, 0x04, 0x04, 0x04,
   0x04, 0x04, 0x04, 0x04, 0x04, 0x04, 0x04, 0x04, 0x04, 0x04, 0x04, 0x04, 0x04, 0x04, 0x04, 0x04,
   0x05, 0x05, 0x05, 0x05, 0x05, 0x05, 0x05, 0x05, 0x05, 0x05, 0x05, 0x05, 0x05, 0x05, 0x05, 0x05,
   0x05, 0x05, 0x05, 0x05, 0x05, 0x05, 0x05, 0x05, 0x05, 0x05, 0x05, 0x05, 0x05, 0x05, 0x05, 0x05,
   0x05, 0x05, 0x05, 0x05, 0x05, 0x05, 0x05, 0x05, 0x05, 0x05, 0x05, 0x05, 0x05, 0x05, 0x05, 0x05,
   0x05, 0x05, 0x05, 0x05, 0x05, 0x05, 0x05, 0x05, 0x05, 0x05, 0x05, 0x05, 0x05, 0x05, 0x05, 0x05,
   0x06, 0x06, 0x06, 0x06, 0x06, 0x06, 0x06, 0x06, 0x06, 0x06, 0x06, 0x06, 0x06, 0x06, 0x06, 0x06,
   0x06, 0x06, 0x06, 0x06, 0x06, 0x06, 0x06, 0x06, 0x06, 0x06, 0x06, 0x06, 0x06, 0x06, 0x06, 0x06,
   0x06, 0x06, 0x06, 0x06, 0x06, 0x06, 0x06, 0x06, 0x06, 0x06, 0x06, 0x06, 0x06, 0x06, 0x06, 0x06,
   0x07, 0x07, 0x07, 0x07, 0x07, 0x07, 0x07, 0x07, 0x07, 0x07, 0x07, 0x07, 0x07, 0x07, 0x07, 0x07,
   0x07, 0x07, 0x07, 0x07, 0x07, 0x07, 0x07, 0x07, 0x07, 0x07, 0x07, 0x07, 0x07, 0x07, 0x07, 0x07,
   0x07, 0x07, 0x07, 0x07, 0x07, 0x07, 0x07, 0x07, 0x07, 0x07, 0x07, 0x07, 0x07, 0x07, 0x07, 0x07,
   0x08, 0x08, 0x08, 0x08, 0x08, 0x08, 0x08, 0x08, 0x08, 0x08, 0x08, 0x08, 0x08, 0x08, 0x08, 0x08]

/-- The lower bits, so many. -/
def lowerBits : Nat → Input → Nat → Option (Input × Option Nat)
  | 0, s, i => some (s, some i)
  | j + 1, s, i =>
    match state_GetBit s with
    | none => none
    | some (s, none) => some (s, none)
    | some (s, some bit) => lowerBits j s (((i <<< 1) + bit.toNat) % 0x10000)

def state_DecodePosition (s : Input) : Option (Input × Option Nat) :=
  match state_GetByte s with
  | none => none
  | some (s, none) => some (s, none)
  | some (s, some i) =>
    let c := d_code.getD i.toNat 0 <<< 6
    match lowerBits (d_len.getD i.toNat 0 - 2) s i.toNat with
    | none => none
    | some (s, none) => some (s, none)
    | some (s, some i) => some (s, some (c ||| (i &&& 0x3f)))

/-! ## The text -/

structure td0dsk_t where
  input : Input
  r : Nat
  bufcnt : Nat
  bufndx : Nat
  bufpos : Nat
  text_buf : Nat → BitVec 8
  tree : Nodes

def state_init_Decode (s : td0dsk_t) : td0dsk_t :=
  { s with
    input := { s.input with getbuf := 0, getlen := 0, ibufcnt := 0, ibufndx := 0 }
    bufcnt := 0
    tree := state_StartHuff s.tree
    text_buf := fun i => if i < N - F then 0x20#8 else s.text_buf i
    r := N - F }

/-- A character in the text. -/
def putChar (s : td0dsk_t) (c : BitVec 8) : td0dsk_t :=
  { s with text_buf := Function.update s.text_buf s.r c, r := (s.r + 1) &&& (N - 1) }

/-- The characters of a copy, while there is room for so many. -/
def copyChars (s : td0dsk_t) : Nat → td0dsk_t × List (BitVec 8)
  | 0 => (s, [])
  | room + 1 =>
    if s.bufndx < s.bufcnt then
      let c := s.text_buf ((s.bufpos + s.bufndx) &&& (N - 1))
      let (s, cs) := copyChars (putChar { s with bufndx := s.bufndx + 1 } c) room
      (s, c :: cs)
    else (s, [])

/-- After the last character of a copy. -/
def endCopy (s : td0dsk_t) : td0dsk_t :=
  if s.bufndx ≥ s.bufcnt then { s with bufndx := 0, bufcnt := 0 } else s

/-- The loop, for at most so many steps: what goes to the buffer. -/
def decodeLoop : Nat → Nat → td0dsk_t → Option (td0dsk_t × List (BitVec 8))
  | 0, _, _ => none
  | fuel + 1, room, s =>
    if room = 0 then some (s, [])
    else if s.bufcnt = 0 then
      match state_DecodeChar s.tree s.input with
      | none => none
      | some (input, none) => some ({ s with input }, [])
      | some (input, some (tree, c)) =>
        let s := { s with input, tree }
        if c < 256 then
          let c := BitVec.ofNat 8 c
          (decodeLoop fuel (room - 1) (putChar s c)).map fun (s, cs) => (s, c :: cs)
        else
          match state_DecodePosition s.input with
          | none => none
          | some (input, none) => some ({ s with input }, [])
          | some (input, some pos) =>
            decodeLoop fuel room { s with
              input
              bufpos := (((s.r : Int) - pos - 1) % N).toNat
              bufcnt := c - 255 + THRESHOLD
              bufndx := 0 }
    else
      let (s, cs) := copyChars s room
      (decodeLoop fuel (room - cs.length) (endCopy s)).map fun (s, ds) => (s, cs ++ ds)

/-- What goes to the buffer: the result is how many there are. -/
def state_Decode (s : td0dsk_t) (len : Nat) : Option (td0dsk_t × List (BitVec 8)) :=
  decodeLoop (2 * len + 1) len s

end blumach.td0
