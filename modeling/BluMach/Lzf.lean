-- The LZF coding of `floppy/lzf`, as `lzfP.h` sets it up: runs of octets, and references to
-- octets that came before. A buffer is a function, and a length says how much of it may be used.
import Mathlib.Data.BitVec
import Mathlib.Logic.Function.Basic

namespace blumach.lzf

/-- The bytes behind a pointer. -/
abbrev Buf := Nat → BitVec 8

def HLOG : Nat := 16

def HSIZE : Nat := 1 <<< HLOG

def MAX_LIT : Nat := 1 <<< 5

def MAX_OFF : Nat := 1 <<< 13

def MAX_REF : Nat := (1 <<< 8) + (1 <<< 3)

/-! ## The hash -/

def FRST (src : Buf) (p : Nat) : BitVec 32 :=
  ((src p).zeroExtend 32 <<< 8) ||| (src (p + 1)).zeroExtend 32

def NEXT (src : Buf) (v : BitVec 32) (p : Nat) : BitVec 32 :=
  (v <<< 8) ||| (src (p + 2)).zeroExtend 32

def IDX (h : BitVec 32) : BitVec 32 :=
  ((h >>> (3 * 8 - HLOG)) - h) &&& BitVec.ofNat 32 (HSIZE - 1)

/-! ## Writing -/

/-- The writer. In front of the `lit` octets at `op` is the place for their number. A slot of the
table is how far an octet is from the first. -/
structure Enc where
  ip : Nat
  op : Nat
  lit : Nat
  hval : BitVec 32
  htab : BitVec 32 → Nat
  out : Buf

def Enc.put (s : Enc) (x : BitVec 8) : Enc :=
  { s with out := Function.update s.out s.op x, op := s.op + 1 }

def Enc.stopRun (s : Enc) : Enc :=
  { s with out := Function.update s.out (s.op - s.lit - 1) (BitVec.ofNat 8 s.lit - 1#8) }

def Enc.startRun (s : Enc) : Enc := { s with lit := 0, op := s.op + 1 }

/-- One octet more in the run. -/
def Enc.take (src : Buf) (s : Enc) : Enc :=
  { s.put (src s.ip) with lit := s.lit + 1, ip := s.ip + 1 }

def literal (src : Buf) (s : Enc) : Enc :=
  if (s.take src).lit = MAX_LIT then (s.take src).stopRun.startRun else s.take src

/-- So many octets are the same, in up to `n` comparisons, and whether all were. -/
def unrolled (src : Buf) (ref ip : Nat) : Nat → Nat → Nat × Bool
  | 0, len => (len, true)
  | n + 1, len =>
    if src (ref + (len + 1)) ≠ src (ip + (len + 1)) then (len + 1, false)
    else unrolled src ref ip n (len + 1)

def extend (src : Buf) (ref ip maxlen len : Nat) : Nat :=
  if len + 1 < maxlen ∧ src (ref + (len + 1)) = src (ip + (len + 1)) then
    extend src ref ip maxlen (len + 1)
  else len + 1
termination_by maxlen - len

/-- How many octets are the same, of which two are known to be. -/
def matchLength (src : Buf) (in_len ref ip : Nat) : Nat :=
  let maxlen := if in_len - ip - 2 > MAX_REF then MAX_REF else in_len - ip - 2
  if maxlen > 16 then
    let (len, same) := unrolled src ref ip 16 2
    if same then extend src ref ip maxlen len else len
  else extend src ref ip maxlen 2

/-- The octets of a reference. -/
def putRef (off len : Nat) (s : Enc) : Enc :=
  let s :=
    if len < 7 then s.put (BitVec.ofNat 8 ((off >>> 8) + (len <<< 5)))
    else
      (s.put (BitVec.ofNat 8 ((off >>> 8) + (7 <<< 5)))).put (BitVec.ofNat 8 (len - 7))
  s.put (BitVec.ofNat 8 off)

def Enc.insert (s : Enc) : Enc := { s with htab := Function.update s.htab (IDX s.hval) s.ip }

/-- The last octet of a reference goes into the table. -/
def rehash (src : Buf) (in_len : Nat) (s : Enc) : Enc :=
  if s.ip + 2 ≥ in_len then s
  else
    let s := { s with ip := s.ip - 1 }
    let s := { s with hval := NEXT src (FRST src s.ip) s.ip }
    { s.insert with ip := s.ip + 1 }

/-- The place for the number of a run is not kept when the run is empty. -/
def Enc.unused (s : Enc) : Nat := if s.lit = 0 then 1 else 0

/-- The store of a match. -/
def writeMatch (src : Buf) (in_len ref : Nat) (s : Enc) : Enc :=
  let len := matchLength src in_len ref s.ip
  let off := s.ip - ref - 1
  let s := { s.stopRun with op := s.op - s.unused }
  rehash src in_len { (putRef off (len - 2) s).startRun with ip := s.ip + len }

def reference (src : Buf) (in_len out_len ref : Nat) (s : Enc) : Option Enc :=
  if s.op + 3 + 1 ≥ out_len ∧ s.op - s.unused + 3 + 1 ≥ out_len then none
  else some (writeMatch src in_len ref s)

/-- What was found in the table starts with the same three octets. -/
def Matches (src : Buf) (ref ip : Nat) : Prop :=
  ref < ip ∧ ip - ref - 1 < MAX_OFF ∧ ref > 0 ∧ src (ref + 2) = src (ip + 2) ∧
    src ref = src ip ∧ src (ref + 1) = src (ip + 1)

instance (src : Buf) (ref ip : Nat) : Decidable (Matches src ref ip) :=
  inferInstanceAs (Decidable (_ ∧ _))

/-- The next octet is put into the table. -/
def Enc.look (src : Buf) (s : Enc) : Enc := Enc.insert { s with hval := NEXT src s.hval s.ip }

/-- What the loop does at an octet: a result of `none` is that there is no room. -/
def encodeStep (src : Buf) (in_len out_len : Nat) (s : Enc) : Option Enc :=
  let ref := s.htab (IDX (NEXT src s.hval s.ip))
  if Matches src ref s.ip then reference src in_len out_len ref (s.look src)
  else if s.op ≥ out_len then none
  else some (literal src (s.look src))

/-- The loop, for at most so many steps, and whether there was room. -/
def encodeLoop (src : Buf) (in_len out_len : Nat) : Nat → Enc → Option (Enc × Bool)
  | 0, _ => none
  | fuel + 1, s =>
    if s.ip + 2 < in_len then
      match encodeStep src in_len out_len s with
      | none => some (s, false)
      | some s => encodeLoop src in_len out_len fuel s
    else some (s, true)

/-- The octets that are too few for a match. -/
def literals (src : Buf) : Nat → Enc → Enc
  | 0, s => s
  | n + 1, s => literals src n (literal src s)

/-- The buffer after the call, and its result. A result of `none` is a loop that does not end. -/
def lzf_compress (src : Buf) (in_len : Nat) (out : Buf) (out_len : Nat) : Option (Buf × Nat) :=
  if in_len = 0 ∨ out_len = 0 then some (out, 0)
  else
    match encodeLoop src in_len out_len (in_len + 1) ⟨0, 1, 0, FRST src 0, fun _ => 0, out⟩ with
    | none => none
    | some (s, false) => some (s.out, 0)
    | some (s, true) =>
      if s.op + 3 > out_len then some (s.out, 0)
      else
        let s := (literals src (in_len - s.ip) s).stopRun
        some (s.out, s.op - s.unused)

/-! ## Reading -/

inductive Errno where
  | E2BIG
  | EINVAL
  deriving DecidableEq

/-- A load outside of the buffer has no value. -/
def load (src : Buf) (in_len i : Nat) : Option (BitVec 8) :=
  if i < in_len then some (src i) else none

def store (out_len : Nat) (out : Buf) (i : Nat) (x : BitVec 8) : Option Buf :=
  if i < out_len then some (Function.update out i x) else none

structure Dec where
  ip : Nat
  op : Nat
  out : Buf

/-- A run: its octets one by one. -/
def copyRun (src : Buf) (in_len out_len : Nat) : Nat → Dec → Option Dec
  | 0, s => some s
  | n + 1, s =>
    match load src in_len s.ip with
    | none => none
    | some x =>
      match store out_len s.out s.op x with
      | none => none
      | some out => copyRun src in_len out_len n ⟨s.ip + 1, s.op + 1, out⟩

/-- The octets of a reference one by one. -/
def copyOctets (out_len : Nat) : Nat → Nat → Nat → Buf → Option Buf
  | 0, _, _, out => some out
  | n + 1, ref, op, out =>
    match load out out_len ref with
    | none => none
    | some x =>
      match store out_len out op x with
      | none => none
      | some out => copyOctets out_len n (ref + 1) (op + 1) out

def memcpy (out_len n ref op : Nat) (out : Buf) : Option Buf :=
  if op + n ≤ out_len ∧ ref + n ≤ out_len then
    some fun j => if op ≤ j ∧ j < op + n then out (ref + (j - op)) else out j
  else none

/-- A long reference to octets that do not overlap is copied at once. -/
def copyRef (out_len len ref op : Nat) (out : Buf) : Option Buf :=
  if len > 9 ∧ op ≥ ref + (len + 2) then memcpy out_len (len + 2) ref op out
  else copyOctets out_len (len + 2) ref op out

def decodeRun (src : Buf) (in_len out_len ctrl : Nat) (s : Dec) : Option (Except Errno Dec) :=
  if s.op + (ctrl + 1) > out_len then some (.error .E2BIG)
  else if s.ip + (ctrl + 1) > in_len then some (.error .EINVAL)
  else (copyRun src in_len out_len (ctrl + 1) s).map .ok

/-- The length of a reference, and where the octet behind it is. -/
def refLength (src : Buf) (in_len ctrl ip : Nat) : Option (Except Errno (Nat × Nat)) :=
  if ip ≥ in_len then some (.error .EINVAL)
  else if ctrl >>> 5 = 7 then
    match load src in_len ip with
    | none => none
    | some x =>
      if ip + 1 ≥ in_len then some (.error .EINVAL) else some (.ok (7 + x.toNat, ip + 1))
  else some (.ok (ctrl >>> 5, ip))

def decodeRef (src : Buf) (in_len out_len ctrl : Nat) (s : Dec) : Option (Except Errno Dec) :=
  match refLength src in_len ctrl s.ip with
  | none => none
  | some (.error e) => some (.error e)
  | some (.ok (len, ip)) =>
    match load src in_len ip with
    | none => none
    | some x =>
      let back := ((ctrl &&& 0x1f) <<< 8) + 1 + x.toNat
      if s.op + len + 2 > out_len then some (.error .E2BIG)
      else if s.op < back then some (.error .EINVAL)
      else
        (copyRef out_len len (s.op - back) s.op s.out).map fun out =>
          .ok ⟨ip + 1, s.op + (len + 2), out⟩

/-- What the loop does with a control octet. A result of `none` is an access outside. -/
def decodeStep (src : Buf) (in_len out_len : Nat) (s : Dec) : Option (Except Errno Dec) :=
  match load src in_len s.ip with
  | none => none
  | some x =>
    let s := { s with ip := s.ip + 1 }
    if x.toNat < 1 <<< 5 then decodeRun src in_len out_len x.toNat s
    else decodeRef src in_len out_len x.toNat s

/-- The loop, for at most so many steps. -/
def decodeLoop (src : Buf) (in_len out_len : Nat) : Nat → Dec → Option (Buf × Except Errno Nat)
  | 0, _ => none
  | fuel + 1, s =>
    match decodeStep src in_len out_len s with
    | none => none
    | some (.error e) => some (s.out, .error e)
    | some (.ok s) =>
      if s.ip < in_len then decodeLoop src in_len out_len fuel s else some (s.out, .ok s.op)

/-- The buffer after the call, and its result or `errno`. A result of `none` is an access outside
of the buffers. -/
def lzf_decompress (src : Buf) (in_len : Nat) (out : Buf) (out_len : Nat) :
    Option (Buf × Except Errno Nat) :=
  decodeLoop src in_len out_len (in_len + 1) ⟨0, 0, out⟩

end blumach.lzf
