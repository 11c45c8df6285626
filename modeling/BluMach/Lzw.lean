-- The LZW files of `floppy/lzw`, in blocks of packed 12-bit codes: the writer keeps its
-- dictionary in a search tree, the reader in an array.
import Mathlib.Data.Tree.Basic
import Mathlib.Data.BitVec
import Mathlib.Logic.Function.Basic

namespace blumach.lzw

/-- The bytes behind a pointer. -/
abbrev Buf := Nat → BitVec 8

def MAX_CODE_LEN : Nat := 12

def FIRST_CODE : Nat := 1 <<< 8

def MAX_CODES : Nat := 1 <<< MAX_CODE_LEN

/-! ## The dictionary of the writer -/

structure dict_node_t where
  codeWord : Nat
  suffixChar : BitVec 8
  prefixCode : Nat

def MakeKey (prefixCode : Nat) (suffixChar : BitVec 8) : Nat :=
  let key := suffixChar.toNat &&& 0xF0
  let key := key <<< MAX_CODE_LEN
  let key := key ||| prefixCode <<< 4
  key ||| (suffixChar.toNat &&& 0x0F)

/-- The node where the search ends: a missing child ends it at the parent. -/
def FindDictionaryEntry (searchKey : Nat) : BinaryTree dict_node_t → Option dict_node_t
  | .nil => none
  | .node root left right =>
    let key := MakeKey root.prefixCode root.suffixChar
    if key = searchKey then some root
    else if searchKey < key then (FindDictionaryEntry searchKey left).or (some root)
    else (FindDictionaryEntry searchKey right).or (some root)

/-- The tree with a new node below the one where the search ends. -/
def link (searchKey : Nat) (tmp : dict_node_t) : BinaryTree dict_node_t → BinaryTree dict_node_t
  | .nil => .node tmp .nil .nil
  | .node root left right =>
    if searchKey < MakeKey root.prefixCode root.suffixChar then
      .node root (link searchKey tmp left) right
    else .node root left (link searchKey tmp right)

/-! ## Packed codes -/

/-- The buffer, `bufPos` in half bytes, and what the function returns. -/
def PutCodeWord (base code : Nat) (dest : Buf) (bufPos : Nat) : Buf × Nat × Int :=
  if bufPos ≥ 0x3000 then (dest, bufPos, -1)
  else
    let realPos := base + bufPos >>> 1
    let dest :=
      if bufPos % 2 = 1 then
        let dest := Function.update dest realPos
          ((dest realPos &&& 0x0f#8) ||| BitVec.ofNat 8 ((code <<< 4) &&& 0xf0))
        Function.update dest (realPos + 1) (BitVec.ofNat 8 ((code >>> 4) &&& 0xff))
      else
        let dest := Function.update dest realPos (BitVec.ofNat 8 (code &&& 0xff))
        Function.update dest (realPos + 1) (BitVec.ofNat 8 ((code >>> 8) &&& 0x0f))
    (dest, bufPos + 3, if bufPos + 3 ≥ 0x3000 then 1 else 0)

/-- The code that stands at a position. -/
def codeAt (src : Buf) (base bufPos : Nat) : Nat :=
  let realPos := base + bufPos >>> 1
  if bufPos % 2 = 1 then
    (((src realPos).toNat &&& 0xf0) >>> 4) ||| (src (realPos + 1)).toNat <<< 4
  else ((src realPos).toNat &&& 0xff) ||| (((src (realPos + 1)).toNat &&& 0xf) <<< 8)

/-- A result of `none` is `EOF`. -/
def GetCodeWord (src : Buf) (base bufLen bufPos : Nat) : Option Nat :=
  if bufPos ≥ bufLen then none else some (codeAt src base bufPos)

/-! ## Writing -/

structure Enc where
  code : Nat
  nextCode : Nat
  dictRoot : BinaryTree dict_node_t
  bufPos : Nat
  bufInPos : Nat
  dest : Buf

/-- The entry for what waits and a letter, if there is room. -/
def addEntry (c : BitVec 8) (s : Enc) : Enc :=
  if s.nextCode < MAX_CODES then
    { s with
      dictRoot := link (MakeKey s.code c) ⟨s.nextCode, c, s.code⟩ s.dictRoot
      nextCode := s.nextCode + 1 }
  else s

/-- The store of the code that waits. -/
def putCode (base : Nat) (s : Enc) : Enc × Int :=
  let (dest, bufPos, ret) := PutCodeWord base s.code s.dest s.bufPos
  ({ s with dest, bufPos }, ret)

/-- The loop over the letters, and whether it came to the end of them. A result of `none` is a
search in an empty tree. -/
def encodeLoop (base : Nat) : List (BitVec 8) → Enc → Option (Enc × Bool)
  | [], s => some (s, true)
  | c :: src, s =>
    match FindDictionaryEntry (MakeKey s.code c) s.dictRoot with
    | none => none
    | some node =>
      if node.prefixCode = s.code ∧ node.suffixChar = c then
        encodeLoop base src { s with code := node.codeWord, bufInPos := s.bufInPos + 1 }
      else
        let (s, ret) := putCode base (addEntry c s)
        if ret ≠ 0 then some (s, false)
        else encodeLoop base src { s with code := c.toNat, bufInPos := s.bufInPos + 1 }

/-- The state when the loop begins, and the letters that it goes over. -/
def encodeStart (base : Nat) (dest : Buf) : List (BitVec 8) → Option (Enc × List (BitVec 8))
  | [] => none
  | [c] => some (⟨c.toNat, FIRST_CODE, .nil, 0, 1, dest⟩, [])
  | c :: c' :: src =>
    let root : BinaryTree dict_node_t := .node ⟨FIRST_CODE, c', c.toNat⟩ .nil .nil
    let s := (putCode base ⟨c.toNat, FIRST_CODE + 1, root, 0, 2, dest⟩).1
    some ({ s with code := c'.toNat }, src)

def LZWEncodeFile_Internal (base : Nat) (src : List (BitVec 8)) (dest : Buf) :
    Option (Enc × Int) :=
  match encodeStart base dest src with
  | none => some (⟨0, FIRST_CODE, .nil, 0, 0, dest⟩, -1)
  | some (s, src) =>
    match encodeLoop base src s with
    | none => none
    | some (s, eof) => some ((putCode base s).1, if eof then 1 else 0)

/-- The half bytes of a block in whole bytes. -/
def bytesOf (bufPos : Nat) : Nat :=
  if bufPos % 2 = 1 then (bufPos >>> 1) + 1 else bufPos >>> 1

/-- The 16-bit store at the front of a block. -/
def putSize (base bufPos : Nat) (dest : Buf) : Buf :=
  Function.update (Function.update dest base (BitVec.ofNat 8 bufPos)) (base + 1)
    (BitVec.ofNat 8 (bufPos >>> 8))

/-- The blocks, at most so many. -/
def encodeBlocks (src_len : Nat) :
    Nat → List (BitVec 8) → Nat → Buf → Nat → Nat → Option (Buf × Nat)
  | 0, _, _, _, _, _ => none
  | fuel + 1, src, base, dest, dst_len, pos =>
    match LZWEncodeFile_Internal (base + 2) src dest with
    | none => none
    | some (s, ret) =>
      if ret = -1 then some (s.dest, dst_len)
      else
        let dest := putSize base s.bufPos s.dest
        let bufPos := bytesOf s.bufPos
        let dst_len := dst_len + (bufPos + 2)
        let pos := pos + s.bufInPos
        if ret = 1 ∨ pos ≥ src_len ∨ bufPos < 0x1800 then some (dest, dst_len)
        else encodeBlocks src_len fuel (src.drop s.bufInPos) (base + (bufPos + 2)) dest dst_len pos

/-- The buffer after the call, and `*dst_len`. -/
def LZWEncodeFile (dest : Buf) (base : Nat) (src : List (BitVec 8)) : Option (Buf × Nat) :=
  encodeBlocks src.length (src.length + 1) src base dest 0 0

/-! ## Reading -/

structure decode_dictionary_t where
  suffixChar : BitVec 8
  prefixCode : Nat

/-- The buffer that is written, and where. -/
structure Out where
  buf : Buf
  dest : Nat
  bufOutPos : Nat

def Out.put (o : Out) (c : BitVec 8) : Out :=
  ⟨Function.update o.buf o.dest c, o.dest + 1, o.bufOutPos + 1⟩

/-- The first letter of the word, which is written. The depth is bounded: a result of `none` is a
chain that is longer than there are codes, so one that does not end. -/
def DecodeRecursive (dictionary : Nat → decode_dictionary_t) :
    Nat → Nat → Out → Option (BitVec 8 × Out)
  | 0, _, _ => none
  | fuel + 1, code, o =>
    if code ≥ FIRST_CODE then
      let entry := dictionary (code - FIRST_CODE)
      match DecodeRecursive dictionary fuel entry.prefixCode o with
      | none => none
      | some (firstChar, o) => some (firstChar, o.put entry.suffixChar)
    else some (BitVec.ofNat 8 code, o.put (BitVec.ofNat 8 code))

structure Dec where
  nextCode : Nat
  lastCode : Nat
  c : BitVec 8
  dictionary : Nat → decode_dictionary_t
  out : Out

/-- What the loop does with a code. -/
def decodeCode (s : Dec) (code : Nat) : Option Dec :=
  let word :=
    if code < s.nextCode then DecodeRecursive s.dictionary MAX_CODES code s.out
    else
      match DecodeRecursive s.dictionary MAX_CODES s.lastCode s.out with
      | none => none
      | some (c, out) => some (c, out.put s.c)
  match word with
  | none => none
  | some (c, out) =>
    let s := { s with c, out }
    let s :=
      if s.nextCode < MAX_CODES then
        { s with
          dictionary := Function.update s.dictionary (s.nextCode - FIRST_CODE) ⟨c, s.lastCode⟩
          nextCode := s.nextCode + 1 }
      else s
    some { s with lastCode := code }

/-- The loop over the codes, for at most so many. -/
def decodeLoop (src : Buf) (base bufLen : Nat) : Nat → Nat → Dec → Option Dec
  | 0, _, _ => none
  | fuel + 1, bufPos, s =>
    match GetCodeWord src base bufLen bufPos with
    | none => some s
    | some code =>
      match decodeCode s code with
      | none => none
      | some s => decodeLoop src base bufLen fuel (bufPos + 3) s

/-- The state when the loop begins. The first code is a letter, and it is cut to one. -/
def decodeStart (dictionary : Nat → decode_dictionary_t) (buf : Buf) (dest code : Nat) : Dec :=
  ⟨FIRST_CODE, code, BitVec.ofNat 8 code, dictionary, (Out.mk buf dest 0).put (BitVec.ofNat 8 code)⟩

def LZWDecodeFile_Internal (src : Buf) (base bufLen : Nat)
    (dictionary : Nat → decode_dictionary_t) (buf : Buf) (dest : Nat) : Option Dec :=
  let code := (GetCodeWord src base bufLen 0).getD 0xffff
  decodeLoop src base bufLen (bufLen + 1) 3 (decodeStart dictionary buf dest code)

/-- The 16-bit load at the front of a block. -/
def getSize (src : Buf) (base : Nat) : Nat := (src base).toNat + 256 * (src (base + 1)).toNat

/-- The blocks, at most so many: what the function returns, the buffer and `*dst_len`. -/
def decodeBlocks (src : Buf) (src_len : Nat) : Nat → Nat → (Nat → decode_dictionary_t) → Buf →
    Nat → Nat → Nat → Option (Int × Buf × Nat)
  | 0, _, _, _, _, _, _ => none
  | fuel + 1, base, dictionary, buf, dest, dst_len, pos =>
    let bufLen := getSize src base
    let size := bytesOf bufLen
    if size > 0x1800 then some (-1, buf, dst_len)
    else
      match LZWDecodeFile_Internal src (base + 2) bufLen dictionary buf dest with
      | none => none
      | some s =>
        let dst_len := dst_len + s.out.bufOutPos
        let pos := pos + (size + 2)
        if size < 0x1800 ∨ pos ≥ src_len then some (0, s.out.buf, dst_len)
        else
          decodeBlocks src src_len fuel (base + (size + 2)) s.dictionary s.out.buf
            (dest + s.out.bufOutPos) dst_len pos

/-- The dictionary is static: it is as the last call left it. -/
def LZWDecodeFile (dictionary : Nat → decode_dictionary_t) (buf : Buf) (dest : Nat) (src : Buf)
    (base src_len : Nat) : Option (Int × Buf × Nat) :=
  decodeBlocks src src_len (src_len + 1) base dictionary buf dest 0 0

end blumach.lzw
