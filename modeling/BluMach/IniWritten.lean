-- What `ini_read_ex` makes of a file that `ini_write_ex` has written: the configurations that can
-- be set, the lines of one, and the list those lines are read into.
import BluMach.IniLaws

namespace blumach.ini

open utf8_text line_reader

/-! ## Configurations -/

/-- At most 127 bytes, no `]` and no line break. -/
structure SectionName (name : List UInt8) : Prop where
  short : name.length ≤ 127
  bytes : ∀ b ∈ name, b ≠ lead ']' ∧ b ≠ lead '\n' ∧ b ≠ lead '\r' ∧ b ≠ 0

/-- At most 127 bytes, no `=`, no blank and no line break, and no start of a comment or of a
section. The byte order mark is a blank without width; it would have to be the first character. -/
structure KeyName (name : List UInt8) : Prop where
  short : name.length ≤ 127
  bytes : ∀ b ∈ name, b ≠ lead '=' ∧ b ≠ lead ' ' ∧ b ≠ lead '\t' ∧ b ≠ lead '\n' ∧
    b ≠ lead '\r' ∧ b ≠ 0
  start : ∀ b, name.head? = some b → b ≠ lead '#' ∧ b ≠ lead ';' ∧ b ≠ lead '['
  no_mark : ini_detect_bom name = false

/-- Less than 512 bytes of text without a line break. -/
structure Value (val : List UInt8) : Prop where
  short : val.length < 512
  bytes : ∀ b ∈ val, b ≠ lead '\n' ∧ b ≠ lead '\r' ∧ b ≠ 0
  text : (mbstowcs val).isSome

/-- An entry as `ini_section_set_string` leaves it, its value in both representations. -/
structure EntryOk (ent : Entry_t) : Prop where
  is_name : KeyName ent.name
  value : Value ent.data
  wide : mbstowcs ent.data = some ent.wdata

structure SectionOk (sec : Section_t) : Prop where
  is_name : SectionName sec.name
  entries : ∀ ent ∈ sec.entries, EntryOk ent

def Configuration (ini : Ini_t) : Prop :=
  ∀ sec ∈ ini, SectionOk sec

/-! ## Names and values as text -/

section

variable {name : List UInt8} {w : List Char}

theorem mbstowcs_eq {s : List UInt8} : mbstowcs s = some w ↔ s = encode w := decode_eq_some

theorem text_of_bytes {b : List UInt8}
    (hb : ∀ x ∈ b, x ≠ lead '\n' ∧ x ≠ lead '\r' ∧ x ≠ 0) (hw : mbstowcs b = some w) :
    ∀ c ∈ w, Text c := by
  obtain rfl := mbstowcs_eq.mp hw
  intro c hc
  obtain ⟨hn, hr, h0⟩ := hb _ (lead_mem hc)
  refine ⟨?_, ?_, ?_⟩
  · rintro rfl
    exact hn rfl
  · rintro rfl
    exact hr rfl
  · rintro rfl
    exact h0 rfl

theorem SectionName.text (h : SectionName name) (hw : mbstowcs name = some w) :
    ∀ c ∈ w, Text c ∧ c ≠ ']' := by
  intro c hc
  refine ⟨text_of_bytes (fun x hx => (h.bytes x hx).2) hw c hc, ?_⟩
  rintro rfl
  obtain rfl := mbstowcs_eq.mp hw
  exact (h.bytes _ (lead_mem hc)).1 rfl

theorem KeyName.entry_name (h : KeyName name) (hne : name ≠ []) (hw : mbstowcs name = some w) :
    EntryName w := by
  have htext := text_of_bytes (fun x hx => (h.bytes x hx).2.2.2) hw
  obtain rfl := mbstowcs_eq.mp hw
  have hw_ne : w ≠ [] := fun hnil => hne (encode_eq_nil.mpr hnil)
  refine ⟨hw_ne, ?_, ?_⟩
  · intro c hc
    obtain ⟨hequal, hspace, -⟩ := h.bytes _ (lead_mem hc)
    refine ⟨htext c hc, ?_, ?_⟩
    · rintro rfl
      exact hequal rfl
    · rintro rfl
      exact hspace rfl
  · intro c hc
    obtain ⟨w, rfl⟩ : ∃ rest, w = c :: rest := List.head?_eq_some_iff.mp hc
    have hhead : (encode (c :: w)).head? = some (lead c) := by
      rw [encode_cons, encodeChar_eq]
      rfl
    obtain ⟨hhash, hsemi, hopen⟩ := h.start _ hhead
    refine ⟨⟨?_, ?_, ?_⟩, ?_⟩
    · rintro rfl
      exact hhash rfl
    · rintro rfl
      exact hsemi rfl
    · rintro rfl
      exact hopen rfl
    · rintro rfl
      exact (h.bytes _ (lead_mem List.mem_cons_self)).2.2.1 rfl

end

/-! ## What is read back -/

/-- A name as it is read back. -/
def read_name (name : List UInt8) : List UInt8 :=
  ((mbstowcs name).getD []).map lead

/-- The entry that is read back, if any is. -/
def reloaded (ent : Entry_t) : Option Entry_t :=
  if ent.name = [] ∨ ent.wdata.dropWhile ends_name = [] then none
  else some (new_entry (read_name ent.name) (ent.wdata.dropWhile ends_name))

def Reading.in_section (r : Reading) (name : List UInt8) : Reading :=
  if name = [] then r else r.open_section (read_name name)

/-- The list behind the lines of a section. -/
def Reading.reload (r : Reading) (sec : Section_t) : Reading :=
  (r.in_section sec.name).add_entries (sec.entries.filterMap reloaded)

theorem add_entries_nil (r : Reading) : r.add_entries [] = r := by
  rw [Reading.add_entries, List.append_nil]

theorem add_entries_append (r : Reading) (more others : List Entry_t) :
    (r.add_entries more).add_entries others = r.add_entries (more ++ others) := by
  rw [Reading.add_entries, Reading.add_entries, Reading.add_entries, List.append_assoc]

/-! ## Entries -/

section

variable {fl fl' : Nat} {text : List Char} {ent : Entry_t} {entries : List Entry_t}

/-- The line of an entry with a name, with a value or without one. -/
theorem write_entries_cons (hne : ent.name ≠ [])
    (h : write_entries fl (ent :: entries) = some (text, fl')) :
    ∃ w lines, mbstowcs ent.name = some w ∧ write_entries (fl + 1) entries = some (lines, fl') ∧
      text = (w ++ ([' ', '=', ' '] ++ ent.wdata)) ++ (['\n'] ++ lines) := by
  rw [write_entries, if_neg hne] at h
  obtain ⟨w, hw, h⟩ := Option.bind_eq_some_iff.mp h
  obtain ⟨⟨lines, fl''⟩, hlines, h⟩ := Option.bind_eq_some_iff.mp h
  obtain ⟨rfl, rfl⟩ := Prod.mk.inj (Option.some.inj h)
  refine ⟨w, lines, hw, hlines, ?_⟩
  by_cases hdata : ent.wdata = []
  · rw [if_pos hdata, hdata]
    simp
  · rw [if_neg hdata]
    simp

theorem EntryOk.line (h : EntryOk ent) (hne : ent.name ≠ []) {w : List Char}
    (hw : mbstowcs ent.name = some w) (r : Reading) (rest : List Char) :
    (AllFit ((w ++ ([' ', '=', ' '] ++ ent.wdata)) ++ (['\n'] ++ rest)) ↔ AllFit rest) ∧
      result ((w ++ ([' ', '=', ' '] ++ ent.wdata)) ++ (['\n'] ++ rest)) r =
        result rest (r.add_entries (reloaded ent).toList) := by
  have hname := h.is_name.entry_name hne hw
  have htext : ∀ c ∈ w ++ ([' ', '=', ' '] ++ ent.wdata), Text c := by
    intro c hc
    rw [List.mem_append, List.mem_append] at hc
    rcases hc with hc | hc | hc
    · exact (hname.text c hc).1
    · exact text_of_separator c hc
    · exact text_of_bytes h.value.bytes h.wide c hc
  have hbytes := mbstowcs_eq.mp hw
  have hlen : (w ++ ([' ', '=', ' '] ++ ent.wdata)).length ≤ 1023 := by
    have h1 := h.is_name.short
    have h2 := h.value.short
    have h3 := length_le_encode w
    have h4 := length_le_encode ent.wdata
    rw [hbytes] at h1
    rw [mbstowcs_eq.mp h.wide] at h2
    rw [List.length_append, List.length_append]
    simp only [List.length_cons, List.length_nil]
    omega
  constructor
  · rw [allFit_line htext hlen .newline, hname.unindented, hname.name_part_eq]
    refine and_iff_right (fits_of_bytes ?_)
    have := h.is_name.short
    rw [hbytes] at this
    omega
  · rw [result_line htext hlen .newline, hname.unindented, hname.effect_eq, reloaded]
    by_cases hvalue : ent.wdata.dropWhile ends_name = []
    · rw [if_pos hvalue, if_pos (Or.inr hvalue), Option.toList_none, add_entries_nil]
      rfl
    · rw [if_neg hvalue, if_neg (not_or.mpr ⟨hne, hvalue⟩), read_name, hw]
      rfl

/-- The lines of a section's entries put those into the current section that are read back. -/
theorem written_entries (hok : ∀ ent ∈ entries, EntryOk ent)
    (h : write_entries fl entries = some (text, fl')) (r : Reading) (rest : List Char) :
    (AllFit (text ++ rest) ↔ AllFit rest) ∧
      result (text ++ rest) r = result rest (r.add_entries (entries.filterMap reloaded)) := by
  induction entries generalizing fl text r with
  | nil =>
    obtain ⟨rfl, rfl⟩ := Prod.mk.inj (Option.some.inj h)
    exact ⟨Iff.rfl, by rw [List.filterMap_nil, add_entries_nil, List.nil_append]⟩
  | cons ent entries ih =>
    rw [List.forall_mem_cons] at hok
    by_cases hne : ent.name = []
    · rw [write_entries, if_pos hne] at h
      have hnone : reloaded ent = none := if_pos (Or.inl hne)
      rw [List.filterMap_cons_none hnone]
      exact ih hok.2 h r
    · obtain ⟨w, lines, hw, hlines, rfl⟩ := write_entries_cons hne h
      obtain ⟨hfit, hresult⟩ := hok.1.line hne hw r (lines ++ rest)
      obtain ⟨hfit', hresult'⟩ := ih hok.2 hlines (r.add_entries (reloaded ent).toList)
      rw [List.append_assoc, List.append_assoc ['\n'], hfit, hfit', hresult, hresult',
        add_entries_append]
      refine ⟨Iff.rfl, ?_⟩
      cases hent : reloaded ent with
      | none => rw [List.filterMap_cons_none hent]; rfl
      | some ne => rw [List.filterMap_cons_some hent]; rfl

end

/-! ## Sections -/

section

variable {fl fl' : Nat} {text : List Char} {sec : Section_t}

/-- A header, with an empty line in front of it if anything is. -/
theorem write_header_cons (hne : sec.name ≠ []) (h : write_header fl sec = some (text, fl')) :
    ∃ w front, mbstowcs sec.name = some w ∧ (front = [] ∨ front = ['\n']) ∧
      text = front ++ (('[' :: (w ++ [']'])) ++ ['\n']) := by
  rw [write_header, if_neg hne] at h
  obtain ⟨w, hw, h⟩ := Option.bind_eq_some_iff.mp h
  by_cases hfl : fl ≠ 0
  · rw [if_pos hfl] at h
    obtain ⟨rfl, -⟩ := Prod.mk.inj (Option.some.inj h)
    exact ⟨w, ['\n'], hw, Or.inr rfl, by simp⟩
  · rw [if_neg hfl] at h
    obtain ⟨rfl, -⟩ := Prod.mk.inj (Option.some.inj h)
    exact ⟨w, [], hw, Or.inl rfl, by simp⟩

theorem SectionName.line {name : List UInt8} {w : List Char} (h : SectionName name)
    (hw : mbstowcs name = some w) (r : Reading) (rest : List Char) :
    (AllFit (('[' :: (w ++ [']'])) ++ (['\n'] ++ rest)) ↔ AllFit rest) ∧
      result (('[' :: (w ++ [']'])) ++ (['\n'] ++ rest)) r =
        result rest (r.open_section (read_name name)) := by
  have htext : ∀ c ∈ '[' :: (w ++ [']']), Text c := by
    intro c hc
    rw [List.mem_cons, List.mem_append, List.mem_singleton] at hc
    rcases hc with rfl | hc | rfl
    · decide
    · exact (h.text hw c hc).1
    · decide
  have hgoes : ∀ c ∈ w, decide (c ≠ ']') = true := fun c hc => decide_eq_true (h.text hw c hc).2
  have hname : section_name (w ++ [']']) = w := by
    rw [section_name, List.takeWhile_append_of_pos hgoes, List.takeWhile_cons_of_neg (by decide),
      List.append_nil]
  have hclosed : ((w ++ [']']).dropWhile (· ≠ ']')).head? = some ']' := by
    rw [List.dropWhile_append_of_pos hgoes]
    rfl
  have hshort := h.short
  rw [mbstowcs_eq.mp hw] at hshort
  have hlen : ('[' :: (w ++ [']'])).length ≤ 1023 := by
    have := length_le_encode w
    rw [List.length_cons, List.length_append, List.length_singleton]
    omega
  have hblank : ('[' :: (w ++ [']'])).dropWhile is_blank = '[' :: (w ++ [']']) := rfl
  constructor
  · rw [allFit_line htext hlen .newline, hblank, name_part_section, hname]
    exact and_iff_right (fits_of_bytes (by omega))
  · rw [result_line htext hlen .newline, hblank, effect_section, if_pos hclosed, hname, read_name,
      hw]
    rfl

theorem empty_line (rest : List Char) (r : Reading) :
    (AllFit ('\n' :: rest) ↔ AllFit rest) ∧ result ('\n' :: rest) r = result rest r := by
  have hblank : ([] : List Char).dropWhile is_blank = [] := rfl
  have htext : ∀ c ∈ ([] : List Char), Text c := List.forall_mem_nil _
  constructor
  · refine (allFit_line htext (Nat.zero_le _) .newline).trans (and_iff_right ?_)
    decide
  · exact result_line htext (Nat.zero_le _) .newline r

theorem written_header (hname : SectionName sec.name)
    (h : write_header fl sec = some (text, fl')) (r : Reading) (rest : List Char) :
    (AllFit (text ++ rest) ↔ AllFit rest) ∧
      result (text ++ rest) r = result rest (r.in_section sec.name) := by
  by_cases hne : sec.name = []
  · rw [write_header, if_pos hne] at h
    obtain ⟨rfl, -⟩ := Prod.mk.inj (Option.some.inj h)
    rw [Reading.in_section, if_pos hne]
    exact ⟨Iff.rfl, rfl⟩
  · obtain ⟨w, front, hw, hfront, rfl⟩ := write_header_cons hne h
    obtain ⟨hfit, hresult⟩ := hname.line hw r rest
    rw [Reading.in_section, if_neg hne, List.append_assoc, List.append_assoc]
    rcases hfront with rfl | rfl
    · exact ⟨hfit, hresult⟩
    · obtain ⟨hfit', hresult'⟩ := empty_line (('[' :: (w ++ [']'])) ++ (['\n'] ++ rest)) r
      exact ⟨hfit'.trans hfit, hresult'.trans hresult⟩

theorem write_sections_cons {ini : Ini_t} (h : write_sections fl (sec :: ini) = some text) :
    ∃ header lines rest fl' fl'', write_header fl sec = some (header, fl') ∧
      write_entries fl' sec.entries = some (lines, fl'') ∧ write_sections fl'' ini = some rest ∧
      text = header ++ (lines ++ rest) := by
  rw [write_sections] at h
  obtain ⟨⟨header, fl'⟩, hheader, h⟩ := Option.bind_eq_some_iff.mp h
  obtain ⟨⟨lines, fl''⟩, hlines, h⟩ := Option.bind_eq_some_iff.mp h
  obtain ⟨rest, hrest, h⟩ := Option.bind_eq_some_iff.mp h
  refine ⟨header, lines, rest, fl', fl'', hheader, hlines, hrest, ?_⟩
  rw [← Option.some.inj h, List.append_assoc]

/-- A written file is read without a name that does not fit, section by section. -/
theorem written_sections {ini : Ini_t} (hok : Configuration ini)
    (h : write_sections fl ini = some text) (r : Reading) :
    AllFit text ∧ result text r = ini.foldl Reading.reload r := by
  induction ini generalizing fl text r with
  | nil =>
    obtain rfl := Option.some.inj h
    exact ⟨by decide, rfl⟩
  | cons sec ini ih =>
    obtain ⟨header, lines, rest, fl', fl'', hheader, hlines, hrest, rfl⟩ := write_sections_cons h
    obtain ⟨hsec, hini⟩ := List.forall_mem_cons.mp hok
    obtain ⟨hfit, hresult⟩ := written_header hsec.is_name hheader r (lines ++ rest)
    obtain ⟨hfit', hresult'⟩ :=
      written_entries hsec.entries hlines (r.in_section sec.name) rest
    obtain ⟨hfit'', hresult''⟩ := ih hini hrest (r.reload sec)
    rw [hfit, hfit', hresult, hresult', List.foldl_cons]
    exact ⟨hfit'', hresult''⟩

/-! ## The whole file -/

theorem head_append {a b : List Char} {c : Char} (ha : a.head? ≠ some c) (hb : b.head? ≠ some c) :
    (a ++ b).head? ≠ some c := by
  cases a with
  | nil => exact hb
  | cons d a => exact ha

theorem entries_without_mark {entries : List Entry_t} (hok : ∀ ent ∈ entries, EntryOk ent)
    (h : write_entries fl entries = some (text, fl')) : text.head? ≠ some '\uFEFF' := by
  induction entries generalizing fl text with
  | nil =>
    obtain ⟨rfl, rfl⟩ := Prod.mk.inj (Option.some.inj h)
    exact nofun
  | cons ent entries ih =>
    rw [List.forall_mem_cons] at hok
    by_cases hne : ent.name = []
    · rw [write_entries, if_pos hne] at h
      exact ih hok.2 h
    · obtain ⟨w, lines, hw, hlines, rfl⟩ := write_entries_cons hne h
      have hmark := hok.1.is_name.no_mark
      rw [mbstowcs_eq.mp hw] at hmark
      refine head_append (head_append ?_ ?_) (head_append ?_ (ih hok.2 hlines))
      · intro hhead
        rw [(detect_bom_iff w).mpr hhead] at hmark
        exact Bool.noConfusion hmark
      · exact fun hhead => absurd (Option.some.inj hhead) (by decide)
      · exact fun hhead => absurd (Option.some.inj hhead) (by decide)

theorem sections_without_mark {ini : Ini_t} (hok : Configuration ini)
    (h : write_sections fl ini = some text) : text.head? ≠ some '\uFEFF' := by
  induction ini generalizing fl text with
  | nil =>
    obtain rfl := Option.some.inj h
    exact nofun
  | cons sec ini ih =>
    obtain ⟨header, lines, rest, fl', fl'', hheader, hlines, hrest, rfl⟩ := write_sections_cons h
    obtain ⟨hsec, hini⟩ := List.forall_mem_cons.mp hok
    refine head_append ?_ (head_append (entries_without_mark hsec.entries hlines) (ih hini hrest))
    by_cases hne : sec.name = []
    · rw [write_header, if_pos hne] at hheader
      obtain ⟨rfl, -⟩ := Prod.mk.inj (Option.some.inj hheader)
      exact nofun
    · obtain ⟨w, front, -, hfront, rfl⟩ := write_header_cons hne hheader
      rcases hfront with rfl | rfl
      · exact fun hhead => absurd (Option.some.inj hhead) (by decide)
      · exact fun hhead => absurd (Option.some.inj hhead) (by decide)

/-- The list that a written configuration is read into. -/
def reloads (ini : Ini_t) : Reading := ini.foldl Reading.reload start

/-- `ini_read_ex` undoes `ini_write_ex` as far as `reload` says, whatever the fuel it ends with. -/
theorem written_file {ini : Ini_t} (hok : Configuration ini) (h : ini_write_ex ini = some text)
    (r : Reading) : (∃ fuel, ini_read_ex fuel text = .done r) ↔ r = reloads ini := by
  have hmark : ¬ ini_detect_bom (encode text) = true := fun hbom =>
    sections_without_mark hok h ((detect_bom_iff text).mp hbom)
  have hbody : body text = text := if_neg hmark
  obtain ⟨hfit, hresult⟩ := written_sections hok h start
  have hreads := @reads_iff text r
  rw [hresult, and_iff_right hfit] at hreads
  simp only [ini_read_ex, hbody]
  exact hreads

end

end blumach.ini
