-- The configuration files of `ini.c`: the sections and entries in memory, the text that
-- `ini_write_ex` makes of them and the sections that `ini_read_ex` makes of a text. A `wchar_t` is
-- a character and a multibyte string its UTF-8; a file that cannot be opened is left out.
import BluMach.Utf8Text
import BluMach.LineReader

namespace blumach.ini

open utf8_text

/-! ## Sections and entries -/

/-- `entry_t`, its three arrays up to their NUL. -/
structure Entry_t where
  name : List UInt8
  data : List UInt8
  wdata : List Char
deriving DecidableEq

structure Section_t where
  name : List UInt8
  entries : List Entry_t
deriving DecidableEq

abbrev Ini_t := List Section_t

/-- The first section of the name. `strncmp` compares whole names: none fills its 128 bytes. -/
def ini_find_section (ini : Ini_t) (name : List UInt8) : Option Section_t :=
  ini.find? fun sec => sec.name = name

def find_entry (sec : Section_t) (name : List UInt8) : Option Entry_t :=
  sec.entries.find? fun ent => ent.name = name

def ini_has_entry (self : Option Section_t) (name : List UInt8) : Bool :=
  match self with
  | none => false
  | some sec => (find_entry sec name).isSome

def ini_section_get_string (self : Option Section_t) (name defl : List UInt8) : List UInt8 :=
  match self with
  | none => defl
  | some sec =>
    match find_entry sec name with
    | none => defl
    | some ent => ent.data

/-! ## The C library -/

/-- No text where the bytes are not the encoding of one. -/
def mbstowcs (s : List UInt8) : Option (List Char) := decode s

def wctomb (c : Char) : List UInt8 := String.utf8EncodeChar c

/-- The characters whose whole encodings fit in `n` bytes. -/
def wcstombs (n : Nat) : List Char → List UInt8
  | [] => []
  | c :: w => if (wctomb c).length ≤ n then wctomb c ++ wcstombs (n - (wctomb c).length) w else []

/-- What is put into the array, the rest of the file, and whether `feof` holds behind the call. -/
def fgetws (count : Nat) (file : List Char) : List Char × List Char × Bool :=
  line_reader.next '\n' count file

/-! ## `ini_section_set_string` -/

/-- None where `data` would be left without a NUL, or its bytes are no text. -/
def set_data (val : List UInt8) (ent : Entry_t) : Option Entry_t :=
  if val.length + 1 ≤ 512 then
    (mbstowcs val).map fun wdata => { ent with data := val, wdata := wdata }
  else none

/-- `find_entry`, or `create_entry` at the end, and the value into it. -/
def set_entry (name val : List UInt8) : List Entry_t → Option (List Entry_t)
  | [] =>
    if name.length + 1 ≤ 128 then (set_data val ⟨name, [], []⟩).map fun ent => [ent] else none
  | ent :: entries =>
    if ent.name = name then (set_data val ent).map fun ent => ent :: entries
    else (set_entry name val entries).map fun entries => ent :: entries

def ini_section_set_string (self : Section_t) (name val : List UInt8) : Option Section_t :=
  (set_entry name val self.entries).map fun entries => { self with entries := entries }

/-- `ini_section_set_string` in the section that `ini_find_or_create_section` gives. -/
def ini_set_string (section_name name val : List UInt8) : Ini_t → Option Ini_t
  | [] =>
    if section_name.length + 1 ≤ 128 then
      (ini_section_set_string ⟨section_name, []⟩ name val).map fun sec => [sec]
    else none
  | sec :: ini =>
    if sec.name = section_name then
      (ini_section_set_string sec name val).map fun sec => sec :: ini
    else (ini_set_string section_name name val ini).map fun ini => sec :: ini

/-! ## `ini_write_ex` -/

/-- The lines of a section's entries, and `fl` behind them. -/
def write_entries (fl : Nat) : List Entry_t → Option (List Char × Nat)
  | [] => some ([], fl)
  | ent :: entries =>
    if ent.name = [] then write_entries fl entries
    else do
      let wtemp ← mbstowcs ent.name
      let line :=
        if ent.wdata = [] then wtemp ++ [' ', '=', ' ', '\n']
        else wtemp ++ [' ', '=', ' '] ++ ent.wdata ++ ['\n']
      let (lines, fl) ← write_entries (fl + 1) entries
      some (line ++ lines, fl)

def write_header (fl : Nat) (sec : Section_t) : Option (List Char × Nat) :=
  if sec.name = [] then some ([], fl)
  else do
    let wtemp ← mbstowcs sec.name
    if fl ≠ 0 then some (['\n', '['] ++ wtemp ++ [']', '\n'], fl + 1)
    else some (['['] ++ wtemp ++ [']', '\n'], fl + 1)

def write_sections (fl : Nat) : Ini_t → Option (List Char)
  | [] => some []
  | sec :: ini => do
    let (header, fl) ← write_header fl sec
    let (lines, fl) ← write_entries fl sec.entries
    let rest ← write_sections fl ini
    some (header ++ lines ++ rest)

/-- None where a name is not text: `wtemp` then holds no string. -/
def ini_write_ex (ini : Ini_t) : Option (List Char) := write_sections 0 ini

/-! ## Names in `sname` and `ename` -/

/-- Bytes at `d` of an array of 128, none where they do not fit. -/
def put (buffer : List UInt8) (d : Nat) (bytes : List UInt8) : Option (List UInt8) :=
  if d + bytes.length ≤ 128 then
    some (buffer.take d ++ bytes ++ buffer.drop (d + bytes.length))
  else none

/-- `wctomb(&(name[d++]), buff[c++])` for each character, and the NUL at `name[d]`. -/
def copy_loop (buffer : List UInt8) (d : Nat) : List Char → Option (List UInt8)
  | [] => put buffer d [0]
  | c :: w => (put buffer d (wctomb c)).bind fun buffer => copy_loop buffer (d + 1) w

/-- The string that is left. What an earlier line wrote into the array is behind its NUL. -/
def copy_name (w : List Char) : Option (List UInt8) :=
  (copy_loop [] 0 w).map fun buffer => buffer.takeWhile (· ≠ 0)

/-! ## `ini_read_ex` -/

/-- The list that `head` starts: the last of its sections is always the current one. -/
structure Reading where
  head : List Section_t
  sec : Section_t
deriving DecidableEq

def Reading.list (r : Reading) : Ini_t := r.head ++ [r.sec]

def Reading.open_section (r : Reading) (name : List UInt8) : Reading where
  head := r.list
  sec := ⟨name, []⟩

def Reading.add_entry (r : Reading) (ne : Entry_t) : Reading where
  head := r.head
  sec := { r.sec with entries := r.sec.entries ++ [ne] }

/-- `buff[wcslen(buff) - 1]`, if it is this character, becomes the NUL. -/
def strip (c : Char) (buff : List Char) : List Char :=
  if buff.getLast? = some c then buff.dropLast else buff

def is_blank (c : Char) : Bool := c = ' ' || c = '\t'

def ends_name (c : Char) : Bool := c = '=' || c = ' '

/-- `buff` from the first character that is neither a blank nor a tab. -/
def line_of (buff : List Char) : List Char :=
  (strip '\r' (strip '\n' (buff.takeWhile (· ≠ '\x00')))).dropWhile is_blank

/-- The entry of a value that starts at `buff[d]`. -/
def new_entry (ename : List UInt8) (value : List Char) : Entry_t where
  name := ename
  wdata := value.take 511
  data := (wcstombs 512 (value.take 511)).take 511

/-- A line behind its `[`. -/
def read_section (line : List Char) (r : Reading) : Option Reading := do
  let sname ← copy_name (line.takeWhile (· ≠ ']'))
  if (line.dropWhile (· ≠ ']')).head? = some ']' then some (r.open_section sname)
  else some r

def read_entry (line : List Char) (r : Reading) : Option Reading := do
  let ename ← copy_name (line.takeWhile fun c => !ends_name c)
  let value := (line.dropWhile fun c => !ends_name c).dropWhile ends_name
  if value = [] then some r
  else some (r.add_entry (new_entry ename value))

/-- One turn behind the test of `feof`, none where a name leaves its array. -/
def read_line (buff : List Char) (r : Reading) : Option Reading :=
  match line_of buff with
  | [] => some r
  | c :: line =>
    if c = '#' ∨ c = ';' then some r
    else if c = '[' then read_section line r
    else read_entry (c :: line) r

inductive Outcome where
  | running
  | overflow
  | done (r : Reading)
deriving DecidableEq

def read_loop : Nat → List Char → Reading → Outcome
  | 0, _, _ => .running
  | fuel + 1, file, r =>
    let (buff, file, eof) := fgetws 1023 file
    -- the characters and their NUL go into `buff[1024]`
    if 1024 < buff.length + 1 then .overflow
    else if eof then .done r
    else
      match read_line buff r with
      | none => .overflow
      | some r => read_loop fuel file r

def ini_detect_bom (file : List UInt8) : Bool :=
  file.take 3 = [0xEF, 0xBB, 0xBF]

/-- The characters behind the byte order mark. -/
def body (text : List Char) : List Char :=
  if ini_detect_bom (encode text) then text.drop 1 else text

/-- The list before the first line: one section, without a name. -/
def start : Reading := ⟨[], ⟨[], []⟩⟩

def ini_read_ex (fuel : Nat) (text : List Char) : Outcome :=
  read_loop fuel (body text) start

end blumach.ini
