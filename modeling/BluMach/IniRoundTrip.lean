-- A configuration that is saved and loaded: which of its strings are found again as they were.
import BluMach.IniWritten

namespace blumach.ini

open utf8_text

/-! ## Strings by their names -/

/-- The string of an entry of a section, each the first of its name. -/
def string_of (ini : Ini_t) (s e : List UInt8) : Option (List UInt8) :=
  (ini_find_section ini s).bind fun sec => (find_entry sec e).map Entry_t.data

section

variable {ini : Ini_t} {s e v : List UInt8}

theorem get_string_eq (ini : Ini_t) (s e defl : List UInt8) :
    ini_section_get_string (ini_find_section ini s) e defl = (string_of ini s e).getD defl := by
  unfold ini_section_get_string string_of
  cases ini_find_section ini s with
  | none => rfl
  | some sec =>
    rw [Option.bind_some]
    dsimp only
    cases find_entry sec e <;> rfl

theorem has_entry_iff :
    ini_has_entry (ini_find_section ini s) e = true ↔ ∃ v, string_of ini s e = some v := by
  unfold ini_has_entry string_of
  cases ini_find_section ini s with
  | none => simp
  | some sec =>
    rw [Option.bind_some]
    change (find_entry sec e).isSome = true ↔ _
    cases find_entry sec e <;> simp

/-- A string is that of an entry of a section. -/
theorem string_of_eq_some :
    string_of ini s e = some v ↔
      ∃ sec, ini_find_section ini s = some sec ∧
        ∃ ent, find_entry sec e = some ent ∧ ent.data = v := by
  rw [string_of, Option.bind_eq_some_iff]
  exact exists_congr fun sec => and_congr_right fun _ => Option.map_eq_some_iff

theorem find_section_spec {sec : Section_t} (h : ini_find_section ini s = some sec) :
    sec ∈ ini ∧ sec.name = s := by
  have hname := List.find?_some h
  exact ⟨List.mem_of_find?_eq_some h, of_decide_eq_true hname⟩

theorem find_entry_spec {sec : Section_t} {ent : Entry_t} (h : find_entry sec e = some ent) :
    ent ∈ sec.entries ∧ ent.name = e := by
  have hname := List.find?_some h
  exact ⟨List.mem_of_find?_eq_some h, of_decide_eq_true hname⟩

end

/-! ## Configurations that are set -/

theorem set_data_spec {val : List UInt8} (hval : Value val) (ent : Entry_t) :
    ∃ wdata, mbstowcs val = some wdata ∧
    set_data val ent = some { ent with data := val, wdata } := by
  obtain ⟨wdata, hw⟩ := Option.isSome_iff_exists.mp hval.text
  refine ⟨wdata, hw, ?_⟩
  rw [set_data, if_pos (Nat.succ_le_of_lt hval.short), hw]
  rfl

theorem set_entry_spec {name val : List UInt8} (hname : KeyName name) (hval : Value val)
    {entries : List Entry_t} (hok : ∀ ent ∈ entries, EntryOk ent) :
    ∃ entries', set_entry name val entries = some entries' ∧ (∀ ent ∈ entries', EntryOk ent) ∧
      (entries'.find? fun ent => ent.name = name).map Entry_t.data = some val := by
  induction entries with
  | nil =>
    obtain ⟨wdata, hw, hset⟩ := set_data_spec hval ⟨name, [], []⟩
    refine ⟨[⟨name, val, wdata⟩], ?_, List.forall_mem_singleton.mpr ⟨hname, hval, hw⟩, ?_⟩
    · rw [set_entry, if_pos (Nat.succ_le_succ hname.short), hset]
      rfl
    · simp only [List.find?_cons, decide_true, Option.map_some]
  | cons ent entries ih =>
    rw [List.forall_mem_cons] at hok
    by_cases hent : ent.name = name
    · obtain ⟨wdata, hw, hset⟩ := set_data_spec hval ent
      refine ⟨{ ent with data := val, wdata } :: entries, ?_,
        List.forall_mem_cons.mpr ⟨⟨hok.1.is_name, hval, hw⟩, hok.2⟩, ?_⟩
      · rw [set_entry, if_pos hent, hset]
        rfl
      · simp only [List.find?_cons, decide_eq_true hent, Option.map_some]
    · obtain ⟨entries', hset, hok', hfind⟩ := ih hok.2
      refine ⟨ent :: entries', ?_, List.forall_mem_cons.mpr ⟨hok.1, hok'⟩, ?_⟩
      · rw [set_entry, if_neg hent, hset]
        rfl
      · simp only [List.find?_cons, decide_eq_false hent, hfind]

theorem set_section_spec {name val : List UInt8} (hname : KeyName name) (hval : Value val)
    {sec : Section_t} (hok : SectionOk sec) :
    ∃ sec', ini_section_set_string sec name val = some sec' ∧ SectionOk sec' ∧
      sec'.name = sec.name ∧ (find_entry sec' name).map Entry_t.data = some val := by
  obtain ⟨entries, hset, hentries, hfind⟩ := set_entry_spec hname hval hok.entries
  exact ⟨{ sec with entries }, by rw [ini_section_set_string, hset]; rfl, ⟨hok.is_name, hentries⟩,
    rfl, hfind⟩

/-- Setting a string keeps a configuration one, and the string can be looked up. -/
theorem set_string_spec {s e v : List UInt8} (hs : SectionName s) (he : KeyName e) (hv : Value v)
    {ini : Ini_t} (hini : Configuration ini) :
    ∃ ini', ini_set_string s e v ini = some ini' ∧ Configuration ini' ∧
      string_of ini' s e = some v := by
  induction ini with
  | nil =>
    obtain ⟨sec, hset, hsec, hname, hfind⟩ :=
      @set_section_spec e v he hv ⟨s, []⟩ ⟨hs, List.forall_mem_nil _⟩
    refine ⟨[sec], ?_, List.forall_mem_singleton.mpr hsec, ?_⟩
    · rw [ini_set_string, if_pos (Nat.succ_le_succ hs.short), hset]
      rfl
    · simp only [string_of, ini_find_section, List.find?_cons, decide_eq_true hname,
        Option.bind_some, hfind]
  | cons sec ini ih =>
    obtain ⟨hsec, hini⟩ := List.forall_mem_cons.mp hini
    by_cases hname : sec.name = s
    · obtain ⟨sec', hset, hsec', hname', hfind⟩ := set_section_spec he hv hsec
      refine ⟨sec' :: ini, ?_, List.forall_mem_cons.mpr ⟨hsec', hini⟩, ?_⟩
      · rw [ini_set_string, if_pos hname, hset]
        rfl
      · simp only [string_of, ini_find_section, List.find?_cons,
          decide_eq_true (hname'.trans hname), Option.bind_some, hfind]
    · obtain ⟨ini', hset, hini', hstring⟩ := ih hini
      refine ⟨sec :: ini', ?_, List.forall_mem_cons.mpr ⟨hsec, hini'⟩, ?_⟩
      · rw [ini_set_string, if_neg hname, hset]
        rfl
      · rw [string_of, ini_find_section] at hstring ⊢
        simp only [List.find?_cons, decide_eq_false hname, hstring]

/-- Strings that are set one after the other make a configuration. -/
theorem settings_make_a_configuration {settings : List (List UInt8 × List UInt8 × List UInt8)}
    (hall : ∀ x ∈ settings, SectionName x.1 ∧ KeyName x.2.1 ∧ Value x.2.2) {ini : Ini_t}
    (hini : Configuration ini) :
    ∃ ini', settings.foldlM (fun ini x => ini_set_string x.1 x.2.1 x.2.2 ini) ini = some ini' ∧
      Configuration ini' := by
  induction settings generalizing ini with
  | nil => exact ⟨ini, rfl, hini⟩
  | cons x settings ih =>
    obtain ⟨⟨hs, he, hv⟩, hall⟩ := List.forall_mem_cons.mp hall
    obtain ⟨ini', hset, hini', -⟩ := set_string_spec hs he hv hini
    obtain ⟨last, hrest, hlast⟩ := ih hall hini'
    exact ⟨last, by rw [List.foldlM_cons, hset]; exact hrest, hlast⟩

/-! ## What is saved and loaded -/

/-- The file that is written is read into a list where every string is the one it was. -/
def SavedAndLoaded (ini : Ini_t) : Prop :=
  ∃ text r, ini_write_ex ini = some text ∧ (∃ fuel, ini_read_ex fuel text = .done r) ∧
    ∀ s e, ini_has_entry (ini_find_section ini s) e = true → ∀ defl,
      ini_section_get_string (ini_find_section r.list s) e defl =
        ini_section_get_string (ini_find_section ini s) e defl

/-- All names are text, and each string that can be looked up is not empty, starts neither with a
blank nor with an equal sign, and stands under ASCII names: that of its entry is not empty, and a
section without a name is the first one. -/
structure Storable (ini : Ini_t) : Prop where
  section_text : ∀ sec ∈ ini, (mbstowcs sec.name).isSome
  entry_text : ∀ sec ∈ ini, ∀ ent ∈ sec.entries, (mbstowcs ent.name).isSome
  names : ∀ s e v, string_of ini s e = some v → Ascii s ∧ Ascii e ∧ e ≠ []
  strings : ∀ s e v, string_of ini s e = some v →
    v ≠ [] ∧ v.head? ≠ some (lead ' ') ∧ v.head? ≠ some (lead '=')
  unnamed : ∀ e v, string_of ini [] e = some v → ∃ sec rest, ini = sec :: rest ∧ sec.name = []

/-- The same, of the strings alone. -/
theorem saved_and_loaded_iff (ini : Ini_t) :
    SavedAndLoaded ini ↔ ∃ text r, ini_write_ex ini = some text ∧
      (∃ fuel, ini_read_ex fuel text = .done r) ∧
        ∀ s e v, string_of ini s e = some v → string_of r.list s e = some v := by
  refine exists_congr fun text => exists_congr fun r => and_congr_right fun _ =>
    and_congr_right fun _ => forall_congr' fun s => forall_congr' fun e => ?_
  rw [has_entry_iff]
  simp only [get_string_eq]
  constructor
  · intro h v hv
    have hget := h ⟨v, hv⟩
    rw [hv] at hget
    cases hr : string_of r.list s e with
    | none =>
      -- a default that is not the string would be given back
      have hne := hget (0 :: v)
      rw [hr] at hne
      exact absurd (congrArg List.length hne) (Nat.succ_ne_self _)
    | some v' =>
      have heq := hget []
      rw [hr] at heq
      exact congrArg some heq
  · rintro h ⟨v, hv⟩ defl
    rw [hv, h v hv]

/-! ## What can be written -/

theorem mbstowcs_nil : mbstowcs [] = some [] := decode_encode []

theorem write_entries_some {entries : List Entry_t} (fl : Nat) :
    (∃ out, write_entries fl entries = some out) ↔
      ∀ ent ∈ entries, (mbstowcs ent.name).isSome := by
  induction entries generalizing fl with
  | nil => exact iff_of_true ⟨_, rfl⟩ (List.forall_mem_nil _)
  | cons ent entries ih =>
    rw [List.forall_mem_cons, write_entries]
    by_cases hne : ent.name = []
    · rw [if_pos hne, ih fl, hne, mbstowcs_nil]
      exact (and_iff_right rfl).symm
    · rw [if_neg hne, ← ih (fl + 1)]
      cases hw : mbstowcs ent.name with
      | none => simp
      | some w =>
        cases hlines : write_entries (fl + 1) entries with
        | none => simp
        | some out => simp

theorem write_header_some {sec : Section_t} (fl : Nat) :
    (∃ out, write_header fl sec = some out) ↔ (mbstowcs sec.name).isSome := by
  rw [write_header]
  by_cases hne : sec.name = []
  · rw [if_pos hne, hne, mbstowcs_nil]
    exact iff_of_true ⟨_, rfl⟩ rfl
  · rw [if_neg hne]
    cases hw : mbstowcs sec.name with
    | none => simp
    | some w =>
      refine iff_of_true ?_ rfl
      by_cases hfl : fl ≠ 0
      · exact ⟨_, if_pos hfl⟩
      · exact ⟨_, if_neg hfl⟩

/-- A configuration can be written where all its names are text. -/
theorem write_sections_some {ini : Ini_t} (fl : Nat) :
    (∃ text, write_sections fl ini = some text) ↔
      (∀ sec ∈ ini, (mbstowcs sec.name).isSome) ∧
        ∀ sec ∈ ini, ∀ ent ∈ sec.entries, (mbstowcs ent.name).isSome := by
  induction ini generalizing fl with
  | nil => exact iff_of_true ⟨_, rfl⟩ ⟨List.forall_mem_nil _, List.forall_mem_nil _⟩
  | cons sec ini ih =>
    rw [List.forall_mem_cons, List.forall_mem_cons]
    constructor
    · rintro ⟨text, h⟩
      obtain ⟨header, lines, rest, fl', fl'', hheader, hlines, hrest, -⟩ := write_sections_cons h
      obtain ⟨hnames, hentries⟩ := (ih fl'').mp ⟨rest, hrest⟩
      exact ⟨⟨(write_header_some fl).mp ⟨_, hheader⟩, hnames⟩,
        (write_entries_some fl').mp ⟨_, hlines⟩, hentries⟩
    · rintro ⟨⟨hname, hnames⟩, hentry, hentries⟩
      obtain ⟨⟨header, fl'⟩, hheader⟩ := (write_header_some fl).mpr hname
      obtain ⟨⟨lines, fl''⟩, hlines⟩ := (write_entries_some fl').mpr hentry
      obtain ⟨rest, hrest⟩ := (ih fl'').mpr ⟨hnames, hentries⟩
      rw [write_sections, hheader]
      simp only [Option.bind_eq_bind, Option.bind_some, hlines, hrest]
      exact ⟨_, rfl⟩

/-! ## Names that are read back -/

section

variable {s t : List UInt8}

theorem text_of_isSome (h : (mbstowcs t).isSome) :
    ∃ w, t = encode w ∧ read_name t = w.map lead := by
  obtain ⟨w, hw⟩ := Option.isSome_iff_exists.mp h
  exact ⟨w, mbstowcs_eq.mp hw, by rw [read_name, hw]; rfl⟩

/-- A name is read as a text if it is that text, of ASCII characters. -/
theorem read_name_iff (ht : (mbstowcs t).isSome) (hs : (mbstowcs s).isSome) :
    read_name t = s ↔ t = s ∧ Ascii s := by
  obtain ⟨w, rfl, hw⟩ := text_of_isSome ht
  obtain ⟨v, rfl, -⟩ := text_of_isSome hs
  rw [hw, leads_eq_encode]
  exact and_congr_left fun _ => ⟨congrArg encode, fun h => encode_injective h⟩

end

/-! ## Strings that are read back -/

/-- What is read starts with the first character of the value. -/
theorem new_entry_head (name : List UInt8) (c : Char) (value : List Char) :
    (new_entry name (c :: value)).data.head? = some (lead c) := by
  have hfits : (wctomb c).length ≤ 512 := by
    have := c.utf8Size_le_four
    rw [wctomb, String.length_utf8EncodeChar]
    omega
  rw [new_entry, List.take_succ_cons, wcstombs, if_pos hfits, wctomb, encodeChar_eq]
  rfl

theorem head_encode (c : Char) (w : List Char) : (encode (c :: w)).head? = some (lead c) := by
  rw [encode_cons, encodeChar_eq]
  rfl

/-- An entry under an ASCII name is read back, with its string, if the string is not empty and
starts neither with a blank nor with an equal sign. -/
theorem reloaded_eq {ent : Entry_t} (hok : EntryOk ent) (htext : (mbstowcs ent.name).isSome)
    (hascii : Ascii ent.name) (hne : ent.name ≠ []) (hdata : ent.data ≠ [])
    (hspace : ent.data.head? ≠ some (lead ' ')) (hequal : ent.data.head? ≠ some (lead '=')) :
    ∃ ne, reloaded ent = some ne ∧ ne.name = ent.name ∧ ne.data = ent.data := by
  have hbytes := mbstowcs_eq.mp hok.wide
  have hwide : ent.wdata ≠ [] := by
    intro hnil
    rw [hnil] at hbytes
    exact hdata hbytes
  have hstays : ent.wdata.dropWhile ends_name = ent.wdata := by
    obtain ⟨c, w, hw⟩ := List.exists_cons_of_ne_nil hwide
    rw [hw] at hbytes ⊢
    rw [hbytes, head_encode] at hspace hequal
    refine List.dropWhile_cons_of_neg ?_
    rw [ends_name_iff]
    rintro (rfl | rfl)
    · exact hequal rfl
    · exact hspace rfl
  refine ⟨new_entry (read_name ent.name) ent.wdata, ?_, (read_name_iff htext htext).mpr
    ⟨rfl, hascii⟩, ?_⟩
  · rw [reloaded, hstays, if_neg (not_or.mpr ⟨hne, hwide⟩)]
  · rw [new_entry_data (hbytes ▸ hok.value.short), hbytes]

/-- An entry that is read back has a name that is, and a value that starts with neither. -/
theorem reloaded_spec {ent ne : Entry_t} (h : reloaded ent = some ne) :
    ent.name ≠ [] ∧ ∃ c value, ends_name c = false ∧
      ne = new_entry (read_name ent.name) (c :: value) := by
  by_cases hnone : ent.name = [] ∨ ent.wdata.dropWhile ends_name = []
  · rw [reloaded, if_pos hnone] at h
    cases h
  · rw [reloaded, if_neg hnone] at h
    rw [not_or] at hnone
    obtain ⟨c, value, hvalue⟩ := List.exists_cons_of_ne_nil hnone.2
    refine ⟨hnone.1, c, value, ?_, by rw [← hvalue]; exact (Option.some.inj h).symm⟩
    have hhead := List.head?_dropWhile_not ends_name ent.wdata
    rw [hvalue] at hhead
    exact hhead

/-! ## Where a string is found again -/

section

variable {s e : List UInt8}

/-- An entry keeps its place among those of its name. -/
theorem find_reloaded {entries : List Entry_t} {ent ne : Entry_t}
    (htext : ∀ ent ∈ entries, (mbstowcs ent.name).isSome) (he : (mbstowcs e).isSome)
    (hfind : entries.find? (fun ent => ent.name = e) = some ent)
    (hne : reloaded ent = some ne) (hname : ne.name = e) (more : List Entry_t) :
    (entries.filterMap reloaded ++ more).find? (fun ent => ent.name = e) = some ne := by
  induction entries with
  | nil => exact nomatch hfind
  | cons a entries ih =>
    rw [List.forall_mem_cons] at htext
    by_cases ha : a.name = e
    · simp only [List.find?_cons, decide_eq_true ha] at hfind
      obtain rfl := Option.some.inj hfind
      rw [List.filterMap_cons_some hne, List.cons_append]
      simp only [List.find?_cons, decide_eq_true hname]
    · simp only [List.find?_cons, decide_eq_false ha] at hfind
      have hrest := ih htext.2 hfind
      cases hnext : reloaded a with
      | none => rw [List.filterMap_cons_none hnext, hrest]
      | some x =>
        have hx : x.name ≠ e := by
          obtain ⟨-, c, value, -, rfl⟩ := reloaded_spec hnext
          exact fun h => ha ((read_name_iff htext.1 he).mp h).1
        rw [List.filterMap_cons_some hnext, List.cons_append]
        simp only [List.find?_cons, decide_eq_false hx, hrest]

theorem grows_reload (ini : Ini_t) (r : Reading) : Grows r (ini.foldl Reading.reload r) := by
  induction ini generalizing r with
  | nil => exact grows_refl r
  | cons sec ini ih =>
    have hnext := (ih (r.reload sec)).of_entries
    rw [List.foldl_cons]
    by_cases hne : sec.name = []
    · rwa [Reading.in_section, if_pos hne] at hnext
    · rw [Reading.in_section, if_neg hne] at hnext
      exact hnext.of_section

def Reading.names (r : Reading) : List (List UInt8) := r.list.map Section_t.name

theorem names_reload (r : Reading) (sec : Section_t) :
    (r.reload sec).names =
      if sec.name = [] then r.names else r.names ++ [read_name sec.name] := by
  have hentries (r : Reading) (entries : List Entry_t) :
      (r.add_entries entries).names = r.names := by
    rw [Reading.names, Reading.names, Reading.list, Reading.list, List.map_append, List.map_append]
    rfl
  rw [Reading.reload, hentries, Reading.in_section]
  by_cases hne : sec.name = []
  · rw [if_pos hne, if_pos hne]
  · rw [if_neg hne, if_neg hne, Reading.names, Reading.open_section, Reading.list, List.map_append]
    rfl

/-- The current section of a list is found in what the list grows into. -/
theorem find_grown {r r' : Reading} (hgrows : Grows r r') (hsec : r.sec.name = s)
    (hhead : ∀ x ∈ r.head, x.name ≠ s) :
    ∃ more, ini_find_section r'.list s = some ⟨s, r.sec.entries ++ more⟩ := by
  obtain ⟨more, later, hlist⟩ := hgrows
  have hnone : r.head.find? (fun sec => sec.name = s) = none := by
    rw [List.find?_eq_none]
    exact fun x hx h => hhead x hx (of_decide_eq_true h)
  refine ⟨more, ?_⟩
  rw [ini_find_section, hlist, List.find?_append, hnone, Option.none_or]
  simp only [List.find?_cons, hsec, decide_true]

theorem find_section_reloaded {ini : Ini_t} {sec : Section_t} (hs : Ascii s) (hne : s ≠ [])
    (htext : ∀ sec ∈ ini, (mbstowcs sec.name).isSome)
    (hfind : ini_find_section ini s = some sec) {r : Reading} (hr : s ∉ r.names) :
    ∃ more, ini_find_section (ini.foldl Reading.reload r).list s =
      some ⟨s, sec.entries.filterMap reloaded ++ more⟩ := by
  obtain ⟨hmem, hname⟩ := find_section_spec hfind
  have hstext : (mbstowcs s).isSome := hname ▸ htext sec hmem
  clear hmem hname
  induction ini generalizing r with
  | nil => exact nomatch hfind
  | cons a ini ih =>
    rw [List.forall_mem_cons] at htext
    rw [List.foldl_cons]
    by_cases ha : a.name = s
    · simp only [ini_find_section, List.find?_cons, decide_eq_true ha] at hfind
      obtain rfl := Option.some.inj hfind
      have hopen : r.in_section a.name = r.open_section s := by
        rw [ha, Reading.in_section, if_neg hne, (read_name_iff hstext hstext).mpr ⟨rfl, hs⟩]
      have hgrows := grows_reload ini (r.reload a)
      have hreload : r.reload a = ⟨r.list, ⟨s, a.entries.filterMap reloaded⟩⟩ := by
        rw [Reading.reload, hopen]
        rfl
      rw [hreload] at hgrows ⊢
      refine find_grown hgrows rfl ?_
      rintro x hx rfl
      exact hr (List.mem_map_of_mem hx)
    · simp only [ini_find_section, List.find?_cons, decide_eq_false ha] at hfind
      refine ih htext.2 hfind ?_
      rw [names_reload]
      split_ifs
      · exact hr
      · rw [List.mem_append, List.mem_singleton, not_or]
        exact ⟨hr, fun h => ha ((read_name_iff htext.1 hstext).mp h.symm).1⟩

/-- A first section without a name is read into the one that the list starts with. -/
theorem find_unnamed_reloaded {ini : Ini_t} {sec : Section_t} (hname : sec.name = []) :
    ∃ more, ini_find_section (reloads (sec :: ini)).list [] =
      some ⟨[], sec.entries.filterMap reloaded ++ more⟩ := by
  have hreload : start.reload sec = ⟨[], ⟨[], sec.entries.filterMap reloaded⟩⟩ := by
    rw [Reading.reload, Reading.in_section, if_pos hname]
    rfl
  have hgrows := grows_reload ini (start.reload sec)
  rw [reloads, List.foldl_cons, hreload] at *
  exact find_grown hgrows rfl (List.forall_mem_nil _)

end

theorem Storable.found {ini : Ini_t} (hconf : Configuration ini) (hstore : Storable ini)
    {s e v : List UInt8} (h : string_of ini s e = some v) :
    string_of (reloads ini).list s e = some v := by
  obtain ⟨hs, he, hne⟩ := hstore.names s e v h
  obtain ⟨hv, hspace, hequal⟩ := hstore.strings s e v h
  obtain ⟨sec, hsec, ent, hent, rfl⟩ := string_of_eq_some.mp h
  obtain ⟨hmem, hsname⟩ := find_section_spec hsec
  obtain ⟨hemem, hename⟩ := find_entry_spec hent
  have htext := hstore.entry_text sec hmem
  subst hename
  obtain ⟨ne, hreloaded, hname, hdata⟩ :=
    reloaded_eq ((hconf sec hmem).entries ent hemem) (htext ent hemem) he hne hv hspace hequal
  have hsection : ∃ more, ini_find_section (reloads ini).list s =
      some ⟨s, sec.entries.filterMap reloaded ++ more⟩ := by
    by_cases hnil : s = []
    · subst hnil
      obtain ⟨first, rest, rfl, hfirst⟩ := hstore.unnamed _ _ h
      have hsame : first = sec := by
        simp only [ini_find_section, List.find?_cons, decide_eq_true hfirst] at hsec
        exact Option.some.inj hsec
      exact hsame ▸ find_unnamed_reloaded hfirst
    · refine find_section_reloaded hs hnil hstore.section_text hsec ?_
      rw [show start.names = [[]] from rfl, List.mem_singleton]
      exact hnil
  obtain ⟨more, hmore⟩ := hsection
  exact string_of_eq_some.mpr
    ⟨_, hmore, ne, find_reloaded htext (htext ent hemem) hent hreloaded hname more, hdata⟩

/-! ## What is found in a list that was read -/

/-- Names are the first bytes of texts, and a string starts with a character of a value. -/
structure Image (sec : Section_t) : Prop where
  name : ∃ w : List Char, sec.name = w.map lead
  entries : ∀ ent ∈ sec.entries, (∃ w : List Char, w ≠ [] ∧ ent.name = w.map lead) ∧
    ∃ c, ends_name c = false ∧ ent.data.head? = some (lead c)

theorem image_reload {r : Reading} {sec : Section_t} (hr : ∀ x ∈ r.list, Image x)
    (htext : ∀ ent ∈ sec.entries, (mbstowcs ent.name).isSome) :
    ∀ x ∈ (r.reload sec).list, Image x := by
  have hnew : ∀ ent ∈ sec.entries.filterMap reloaded,
      (∃ w : List Char, w ≠ [] ∧ ent.name = w.map lead) ∧
        ∃ c, ends_name c = false ∧ ent.data.head? = some (lead c) := by
    intro ent hent
    obtain ⟨a, ha, hreloaded⟩ := List.mem_filterMap.mp hent
    obtain ⟨hne, c, value, hc, rfl⟩ := reloaded_spec hreloaded
    obtain ⟨w, hw, hread⟩ := text_of_isSome (htext a ha)
    refine ⟨⟨w, ?_, hread⟩, c, hc, new_entry_head _ c value⟩
    rintro rfl
    exact hne hw
  have hin : ∀ x ∈ (r.in_section sec.name).list, Image x := by
    rw [Reading.in_section]
    split_ifs
    · exact hr
    · intro x hx
      rcases List.mem_append.mp hx with hx | hx
      · exact hr x hx
      · rw [List.mem_singleton.mp hx]
        exact ⟨⟨_, rfl⟩, List.forall_mem_nil _⟩
  intro x hx
  rw [Reading.reload, Reading.list, List.mem_append, List.mem_singleton] at hx
  rcases hx with hx | rfl
  · exact hin x (List.mem_append_left _ hx)
  · have hsec := hin _ (List.mem_append_right _ (List.mem_singleton.mpr rfl))
    refine ⟨hsec.name, List.forall_mem_append.mpr ⟨hsec.entries, hnew⟩⟩

theorem image_reloads {ini : Ini_t}
    (htext : ∀ sec ∈ ini, ∀ ent ∈ sec.entries, (mbstowcs ent.name).isSome) :
    ∀ x ∈ (reloads ini).list, Image x := by
  have hfold : ∀ r : Reading, (∀ x ∈ r.list, Image x) →
      ∀ x ∈ (ini.foldl Reading.reload r).list, Image x := by
    induction ini with
    | nil => exact fun r hr => hr
    | cons sec ini ih =>
      rw [List.forall_mem_cons] at htext
      exact fun r hr => ih htext.2 _ (image_reload hr htext.1)
  refine hfold start fun x hx => ?_
  rw [List.mem_singleton.mp hx]
  exact ⟨⟨[], rfl⟩, List.forall_mem_nil _⟩

/-- Behind a first section with a name the one without a name has no entries. -/
theorem unnamed_empty {ini : Ini_t} {sec : Section_t} {e : List UInt8} (hne : sec.name ≠ []) :
    string_of (reloads (sec :: ini)).list [] e = none := by
  obtain ⟨more, later, hlist⟩ := grows_reload ini (start.reload sec)
  have hhead : (start.reload sec).head = [⟨[], []⟩] := by
    rw [Reading.reload, Reading.in_section, if_neg hne]
    rfl
  rw [hhead] at hlist
  rw [string_of, ini_find_section, reloads, List.foldl_cons, hlist]
  rfl

theorem ascii_of_read {t : List UInt8} {w : List Char} (ht : (mbstowcs t).isSome)
    (h : t = w.map lead) : Ascii t := by
  obtain ⟨v, rfl, -⟩ := text_of_isSome ht
  exact ascii_of_leads h.symm

/-- No string that was read is empty. -/
theorem string_read_ne_nil {ini : Ini_t} {s e v : List UInt8}
    (htext : ∀ sec ∈ ini, ∀ ent ∈ sec.entries, (mbstowcs ent.name).isSome)
    (h : string_of (reloads ini).list s e = some v) : v ≠ [] := by
  obtain ⟨sec, hsec, ent, hent, rfl⟩ := string_of_eq_some.mp h
  obtain ⟨-, c, -, hhead⟩ := (image_reloads htext sec (find_section_spec hsec).1).entries ent
    (find_entry_spec hent).1
  intro hnil
  rw [hnil] at hhead
  exact nomatch hhead

/-- A configuration is loaded as it was saved just where it is storable: the reader drops an empty
value, swallows the blanks and equal signs a value starts with and keeps one byte of each character
of a name, and the writer has no line for an entry without a name and no header for a section
without one. -/
theorem saved_and_loaded {ini : Ini_t} (hconf : Configuration ini) :
    SavedAndLoaded ini ↔ Storable ini := by
  rw [saved_and_loaded_iff]
  constructor
  · rintro ⟨text, r, hwrite, hread, hsame⟩
    obtain ⟨hsections, hentries⟩ := (write_sections_some 0).mp ⟨text, hwrite⟩
    obtain rfl := (written_file hconf hwrite r).mp hread
    have himage {s e v : List UInt8} (h : string_of ini s e = some v) :
        Ascii s ∧ (Ascii e ∧ e ≠ []) ∧ ∃ c, ends_name c = false ∧ v.head? = some (lead c) := by
      obtain ⟨sec, hsec, ent, hent, -⟩ := string_of_eq_some.mp h
      obtain ⟨hmem, rfl⟩ := find_section_spec hsec
      obtain ⟨hemem, rfl⟩ := find_entry_spec hent
      obtain ⟨sec', hsec', ent', hent', rfl⟩ := string_of_eq_some.mp (hsame _ _ _ h)
      obtain ⟨hmem', hname'⟩ := find_section_spec hsec'
      obtain ⟨hemem', hename'⟩ := find_entry_spec hent'
      obtain ⟨⟨w, hw⟩, hall⟩ := image_reloads hentries sec' hmem'
      obtain ⟨⟨w', hne, hw'⟩, hc⟩ := hall ent' hemem'
      rw [hname'] at hw
      rw [hename'] at hw'
      refine ⟨ascii_of_read (hsections sec hmem) hw,
        ⟨ascii_of_read (hentries sec hmem ent hemem) hw', ?_⟩, hc⟩
      rw [hw']
      exact fun hnil => hne (List.map_eq_nil_iff.mp hnil)
    refine ⟨hsections, hentries, fun s e v h => ⟨(himage h).1, (himage h).2.1⟩, ?_, ?_⟩
    · intro s e v h
      obtain ⟨-, -, c, hc, hhead⟩ := himage h
      rw [hhead]
      rw [Bool.eq_false_iff, Ne, ends_name_iff, not_or] at hc
      refine ⟨?_, fun h => hc.2 ?_, fun h => hc.1 ?_⟩
      · rintro rfl
        exact nomatch hhead
      · exact (eq_of_lead (by decide) (Option.some.inj h).symm).symm
      · exact (eq_of_lead (by decide) (Option.some.inj h).symm).symm
    · intro e v h
      cases ini with
      | nil => exact nomatch h
      | cons sec ini =>
        refine ⟨sec, ini, rfl, ?_⟩
        by_contra hne
        have hsome := hsame _ _ _ h
        rw [unnamed_empty hne] at hsome
        exact nomatch hsome
  · intro hstore
    obtain ⟨text, hwrite⟩ :=
      (write_sections_some 0).mpr ⟨hstore.section_text, hstore.entry_text⟩
    exact ⟨text, reloads ini, hwrite, (written_file hconf hwrite _).mpr rfl,
      fun s e v h => hstore.found hconf h⟩

/-! ## Small configurations -/

section

variable {s e v : List UInt8} {w : List Char}

theorem one_string (hs : SectionName s) (he : KeyName e) (hv : Value v) (hw : mbstowcs v = some w) :
    Configuration [⟨s, [⟨e, v, w⟩]⟩] :=
  List.forall_mem_singleton.mpr ⟨hs, List.forall_mem_singleton.mpr ⟨he, hv, hw⟩⟩

/-- What all entries have, the strings that are looked up have. -/
theorem forall_string_of {P : List UInt8 → List UInt8 → List UInt8 → Prop} {ini : Ini_t}
    (hall : ∀ sec ∈ ini, ∀ ent ∈ sec.entries, P sec.name ent.name ent.data)
    (h : string_of ini s e = some v) : P s e v := by
  obtain ⟨sec, hsec, ent, hent, rfl⟩ := string_of_eq_some.mp h
  obtain ⟨hmem, rfl⟩ := find_section_spec hsec
  obtain ⟨hemem, rfl⟩ := find_entry_spec hent
  exact hall sec hmem ent hemem

/-- The section `s`. -/
theorem name_s : SectionName [0x73] :=
  ⟨by decide, List.forall_mem_singleton.mpr (by decide)⟩

/-- The entries `e` and `f`. -/
theorem name_e : ∀ b ∈ [(0x65 : UInt8), 0x66], KeyName [b] := by
  intro b hb
  refine ⟨by simp, List.forall_mem_singleton.mpr ?_, fun b' hb' => ?_, ?_⟩
  · revert b
    decide +kernel
  · obtain rfl := Option.some.inj hb'
    revert b
    decide +kernel
  · revert b
    decide +kernel

/-- `e = v` in the section without a name, and in `s` an `e` of its own and an `f` whose string is
not ASCII. -/
def threeStrings : Ini_t :=
  [⟨[], [⟨[0x65], [0x76], ['v']⟩]⟩,
    ⟨[0x73], [⟨[0x65], [0x77, 0x3D], ['w', '=']⟩, ⟨[0x66], [0xC3, 0xA9], ['é']⟩]⟩]

theorem threeStrings_ok : Configuration threeStrings := by
  have hsections : ∀ sec ∈ threeStrings, sec.name.length ≤ 127 ∧
      ∀ b ∈ sec.name, b ≠ lead ']' ∧ b ≠ lead '\n' ∧ b ≠ lead '\r' ∧ b ≠ 0 := by
    decide +kernel
  have hnames : ∀ sec ∈ threeStrings, ∀ ent ∈ sec.entries,
      ∃ b ∈ [(0x65 : UInt8), 0x66], ent.name = [b] := by
    decide
  have hvalues : ∀ sec ∈ threeStrings, ∀ ent ∈ sec.entries, ent.data.length < 512 ∧
      (∀ b ∈ ent.data, b ≠ lead '\n' ∧ b ≠ lead '\r' ∧ b ≠ 0) ∧ ent.data = encode ent.wdata := by
    decide +kernel
  intro sec hsec
  refine ⟨⟨(hsections sec hsec).1, (hsections sec hsec).2⟩, fun ent hent => ?_⟩
  obtain ⟨b, hb, hname⟩ := hnames sec hsec ent hent
  obtain ⟨hshort, hbytes, henc⟩ := hvalues sec hsec ent hent
  have hwide : mbstowcs ent.data = some ent.wdata := mbstowcs_eq.mpr henc
  exact ⟨hname ▸ name_e b hb, ⟨hshort, hbytes, by rw [hwide]; rfl⟩, hwide⟩

theorem three_strings_are_loaded : SavedAndLoaded threeStrings := by
  have htext : ∀ b w, b = encode w → (mbstowcs b).isSome := fun b w h => by
    rw [mbstowcs_eq.mpr h]
    rfl
  have hsections : ∀ sec ∈ threeStrings, ∃ w ∈ [[], ['s']], sec.name = encode w := by
    decide
  have hentries : ∀ sec ∈ threeStrings, ∀ ent ∈ sec.entries,
      ∃ w ∈ [['e'], ['f']], ent.name = encode w := by
    decide
  refine (saved_and_loaded threeStrings_ok).mpr ⟨fun sec hsec => ?_, fun sec hsec ent hent => ?_,
    fun s e v h => ?_, fun s e v h => ?_, fun e v _ => ⟨_, _, rfl, rfl⟩⟩
  · obtain ⟨w, -, hw⟩ := hsections sec hsec
    exact htext _ w hw
  · obtain ⟨w, -, hw⟩ := hentries sec hsec ent hent
    exact htext _ w hw
  · exact forall_string_of (P := fun s e _ => Ascii s ∧ Ascii e ∧ e ≠ []) (by decide) h
  · exact forall_string_of
      (P := fun _ _ v => v ≠ [] ∧ v.head? ≠ some (lead ' ') ∧ v.head? ≠ some (lead '='))
      (by decide) h

/-- The empty string that is set in the entry `e` of the section `s`. -/
theorem the_empty_string_is_lost :
    Configuration [⟨[0x73], [⟨[0x65], [], []⟩]⟩] ∧
      ¬ SavedAndLoaded [⟨[0x73], [⟨[0x65], [], []⟩]⟩] := by
  have hconf : Configuration [⟨[0x73], [⟨[0x65], [], []⟩]⟩] :=
    one_string name_s (name_e 0x65 (by decide))
      ⟨by decide, List.forall_mem_nil _, by rw [mbstowcs_nil]; rfl⟩ mbstowcs_nil
  refine ⟨hconf, fun h => ?_⟩
  obtain ⟨text, r, hwrite, hread, hsame⟩ := (saved_and_loaded_iff _).mp h
  obtain ⟨-, htext⟩ := (write_sections_some 0).mp ⟨text, hwrite⟩
  obtain rfl := (written_file hconf hwrite r).mp hread
  exact string_read_ne_nil htext (hsame [0x73] [0x65] [] rfl) rfl

end

end blumach.ini
