-- UTF-8 between lists of characters and lists of bytes: what an encoding decodes to, the byte that
-- a character starts with, and the characters of one byte.
import Mathlib.Data.List.Basic

namespace utf8_text

/-! ## Encoding and decoding -/

def encode (w : List Char) : List UInt8 :=
  w.flatMap String.utf8EncodeChar

/-- The text whose encoding the bytes are, if they are one. -/
def decode (b : List UInt8) : Option (List Char) :=
  b.toByteArray.utf8Decode?.map Array.toList

@[simp] theorem encode_nil : encode [] = [] := rfl

@[simp] theorem encode_cons (c : Char) (w : List Char) :
    encode (c :: w) = String.utf8EncodeChar c ++ encode w := by
  rw [encode, List.flatMap_cons, encode]

@[simp] theorem encode_append (v w : List Char) : encode (v ++ w) = encode v ++ encode w := by
  rw [encode, List.flatMap_append, encode, encode]

theorem encode_toByteArray (w : List Char) : (encode w).toByteArray = w.utf8Encode := rfl

@[simp] theorem decode_encode (w : List Char) : decode (encode w) = some w := by
  rw [decode, encode_toByteArray, List.utf8Decode?_utf8Encode]
  rfl

theorem decode_eq_some {b : List UInt8} {w : List Char} : decode b = some w ↔ b = encode w := by
  constructor
  · intro h
    obtain ⟨a, ha, rfl⟩ := Option.map_eq_some_iff.mp h
    have hsome : b.toByteArray.utf8Decode?.isSome := by rw [ha]; rfl
    have henc := ByteArray.utf8Encode_get_utf8Decode? (h := hsome)
    rw [Option.get_of_eq_some hsome ha] at henc
    have hbytes := congrArg (fun x => x.data.toList) henc
    simpa [encode, List.utf8Encode] using hbytes.symm
  · rintro rfl
    exact decode_encode w

theorem encode_injective {v w : List Char} (h : encode v = encode w) : v = w := by
  have hdecode := decode_encode v
  rw [h, decode_encode] at hdecode
  exact (Option.some.inj hdecode).symm

theorem encode_eq_nil {w : List Char} : encode w = [] ↔ w = [] :=
  ⟨fun h => encode_injective h, fun h => by rw [h]; rfl⟩

theorem length_le_encode (w : List Char) : w.length ≤ (encode w).length := by
  induction w with
  | nil => exact Nat.le_refl 0
  | cons c w ih =>
    rw [encode_cons, List.length_append, List.length_cons, String.length_utf8EncodeChar]
    have := c.utf8Size_pos
    omega

/-! ## First bytes -/

/-- The byte a character's encoding starts with. -/
def lead (c : Char) : UInt8 :=
  (String.utf8EncodeChar c).headD 0

theorem encodeChar_eq (c : Char) :
    String.utf8EncodeChar c = lead c :: (String.utf8EncodeChar c).tail := by
  have hne : String.utf8EncodeChar c ≠ [] := String.utf8EncodeChar_ne_nil
  cases h : String.utf8EncodeChar c with
  | nil => exact absurd h hne
  | cons b bs => rw [lead, h]; rfl

theorem lead_mem {c : Char} {w : List Char} (hc : c ∈ w) : lead c ∈ encode w :=
  List.mem_flatMap.mpr ⟨c, hc, by rw [encodeChar_eq]; exact List.mem_cons_self⟩

theorem lead_first (c : Char) : (lead c).IsUTF8FirstByte := by
  have hpos : 0 < (String.utf8EncodeChar c).length := by
    rw [String.length_utf8EncodeChar]
    exact c.utf8Size_pos
  have hfirst : (String.utf8EncodeChar c)[0].IsUTF8FirstByte :=
    UInt8.isUTF8FirstByte_getElem_utf8EncodeChar.mpr rfl
  have hlead : lead c = (String.utf8EncodeChar c)[0] := by
    rw [lead, List.headD_eq_head?_getD, List.head?_eq_getElem?, List.getElem?_eq_getElem hpos]
    rfl
  rwa [hlead]

/-- No byte of an encoding but the one it starts with can start an encoding. -/
theorem tail_not_first {c : Char} {b : UInt8} (hb : b ∈ (String.utf8EncodeChar c).tail) :
    ¬ b.IsUTF8FirstByte := by
  obtain ⟨i, hi, rfl⟩ := List.getElem_of_mem hb
  have hi' : i + 1 < (String.utf8EncodeChar c).length := by
    rw [List.length_tail] at hi
    omega
  rw [List.getElem_tail, UInt8.isUTF8FirstByte_getElem_utf8EncodeChar]
  exact Nat.succ_ne_zero i

/-! ## Characters of one byte -/

def Ascii (b : List UInt8) : Prop :=
  ∀ x ∈ b, x < 128

instance (b : List UInt8) : Decidable (Ascii b) := List.decidableBAll _ b

theorem encodeChar_ascii {c : Char} (hc : c.val ≤ 127) :
    String.utf8EncodeChar c = [c.val.toUInt8] :=
  String.utf8EncodeChar_eq_singleton (Char.utf8Size_eq_one_iff.mpr hc)

theorem val_le_of_lead {c : Char} (hc : lead c < 128) : c.val ≤ 127 := by
  by_contra hle
  have hv : ¬ c.val.toNat ≤ 0x7f := hle
  have hlt : (lead c).toNat < 128 := hc
  revert hlt
  rw [lead, String.utf8EncodeChar]
  rw [if_neg hv]
  split_ifs <;> simp only [List.headD_cons, UInt8.toNat_ofNat'] <;> omega

theorem lead_ascii {c : Char} (hc : c.val ≤ 127) : lead c = c.val.toUInt8 := by
  rw [lead, encodeChar_ascii hc]
  rfl

theorem lead_lt {c : Char} : lead c < 128 ↔ c.val ≤ 127 := by
  refine ⟨val_le_of_lead, fun hc => ?_⟩
  rw [lead_ascii hc, UInt8.lt_iff_toNat_lt]
  have hv : c.val.toNat ≤ 127 := hc
  have hbyte : c.val.toUInt8.toNat = c.val.toNat % 256 := rfl
  rw [hbyte]
  change c.val.toNat % 256 < 128
  omega

/-- A text whose encoding is ASCII is its own list of first bytes. -/
theorem leads_of_ascii {w : List Char} (hw : Ascii (encode w)) : w.map lead = encode w := by
  induction w with
  | nil => rfl
  | cons c w ih =>
    rw [encode_cons] at hw ⊢
    have hlead : lead c < 128 := hw _ (encode_cons c w ▸ lead_mem List.mem_cons_self)
    have hrest : Ascii (encode w) := fun x hx => hw x (List.mem_append_right _ hx)
    rw [List.map_cons, ih hrest, encodeChar_ascii (lead_lt.mp hlead), lead_ascii (lead_lt.mp hlead)]
    rfl

theorem ascii_iff {w : List Char} : Ascii (encode w) ↔ ∀ c ∈ w, c.val ≤ 127 := by
  induction w with
  | nil => simp [Ascii]
  | cons c w ih =>
    rw [List.forall_mem_cons, ← ih, encode_cons]
    constructor
    · intro h
      have hlead : lead c < 128 := h _ (encode_cons c w ▸ lead_mem List.mem_cons_self)
      exact ⟨lead_lt.mp hlead, fun x hx => h x (List.mem_append_right _ hx)⟩
    · rintro ⟨hc, hw⟩ x hx
      rcases List.mem_append.mp hx with hx | hx
      · rw [encodeChar_ascii hc, List.mem_singleton] at hx
        rw [hx, ← lead_ascii hc]
        exact lead_lt.mpr hc
      · exact hw x hx

/-- The first bytes of the characters of a text are an encoding only if they are ASCII. -/
theorem ascii_of_leads {v w : List Char} (h : v.map lead = encode w) : Ascii (encode w) := by
  have hfirst : ∀ x ∈ encode w, x.IsUTF8FirstByte := by
    intro x hx
    rw [← h] at hx
    obtain ⟨c, -, rfl⟩ := List.mem_map.mp hx
    exact lead_first c
  rw [ascii_iff]
  intro c hc
  have htail : (String.utf8EncodeChar c).tail = [] := by
    rw [List.eq_nil_iff_forall_not_mem]
    intro x hx
    exact tail_not_first hx
      (hfirst x (List.mem_flatMap.mpr ⟨c, hc, List.mem_of_mem_tail hx⟩))
  have hlen := congrArg List.length (encodeChar_eq c)
  rw [htail, String.length_utf8EncodeChar] at hlen
  exact Char.utf8Size_eq_one_iff.mp hlen

/-- ASCII first bytes are those of the text they spell, and of no other. -/
theorem leads_eq_encode {v w : List Char} : v.map lead = encode w ↔ v = w ∧ Ascii (encode w) := by
  constructor
  · intro h
    have hw := ascii_of_leads h
    have hv : Ascii (encode v) := by
      rw [ascii_iff]
      intro c hc
      rw [← lead_lt]
      exact hw _ (h ▸ List.mem_map_of_mem hc)
    rw [leads_of_ascii hv] at h
    exact ⟨encode_injective h, hw⟩
  · rintro ⟨rfl, hv⟩
    exact leads_of_ascii hv

/-- An ASCII character is in a text where its byte is in the encoding. -/
theorem lead_mem_encode {a : Char} (ha : a.val ≤ 127) {w : List Char} :
    lead a ∈ encode w ↔ a ∈ w := by
  constructor
  · intro hmem
    obtain ⟨c, hc, hin⟩ := List.mem_flatMap.mp hmem
    rw [encodeChar_eq] at hin
    rcases List.mem_cons.mp hin with hlead | htail
    · have hval : c.val ≤ 127 := lead_lt.mp (hlead ▸ lead_lt.mpr ha)
      have henc : encode [a] = encode [c] := by
        rw [encode_cons, encode_cons, encodeChar_ascii ha, encodeChar_ascii hval,
          ← lead_ascii ha, ← lead_ascii hval, hlead]
      rw [(List.cons.inj (encode_injective henc)).1]
      exact hc
    · exact absurd (lead_first a) (tail_not_first htail)
  · exact lead_mem

theorem eq_of_lead {a c : Char} (ha : a.val ≤ 127) (h : lead a = lead c) : a = c := by
  have hmem : lead a ∈ encode [c] := h ▸ lead_mem List.mem_cons_self
  exact List.mem_singleton.mp ((lead_mem_encode ha).mp hmem)

/-! ## Prefixes -/

theorem first_char {a c : Char} {x y : List UInt8}
    (h : String.utf8EncodeChar a ++ x = String.utf8EncodeChar c ++ y) : a = c := by
  have hdecode (d : Char) (z : List UInt8) :
      (String.utf8EncodeChar d ++ z).toByteArray.utf8DecodeChar? 0 = some d := by
    rw [List.toByteArray_append]
    exact ByteArray.utf8DecodeChar?_utf8EncodeChar_append
  exact Option.some.inj ((hdecode a x).symm.trans (h ▸ hdecode c y))

/-- A text starts with the characters its encoding starts with the bytes of. -/
theorem encode_prefix_iff {v w : List Char} : encode v <+: encode w ↔ v <+: w := by
  constructor
  · intro h
    induction v generalizing w with
    | nil => exact List.nil_prefix
    | cons a v ih =>
      obtain ⟨rest, hrest⟩ := h
      rw [encode_cons, List.append_assoc] at hrest
      cases w with
      | nil =>
        rw [encodeChar_eq] at hrest
        exact absurd hrest (List.cons_ne_nil _ _)
      | cons c w =>
        rw [encode_cons] at hrest
        obtain rfl := first_char hrest
        rw [List.prefix_cons_inj]
        exact ih ⟨rest, List.append_cancel_left hrest⟩
  · rintro ⟨rest, rfl⟩
    rw [encode_append]
    exact List.prefix_append _ _

end utf8_text
