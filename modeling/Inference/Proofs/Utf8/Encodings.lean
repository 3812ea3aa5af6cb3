import Inference.Proofs.Lists
import Inference.Source.Utf8
import Mathlib.Tactic.IntervalCases

/-!
# Encodings of characters

No encoding of a character is the start of another one (`encoding_append_inj`). Therefore the
longest encoded text at the start of bytes reaches up to where no encoding goes on
(`isLongest_encode`), and what follows there is judged by the bytes with which a character
begins (`Begun`). Of an encoding, the first byte tells how many bytes there are, and each
later byte has six bits of the number of the character (`getElem?_encoding`).
-/

namespace Inference.Source.Utf8

variable {char : Char} {chars others : List Char} {byte : UInt8} {bytes rest start : List UInt8}

/-! ## Texts -/

/-- The encodings of characters, one after the other. -/
def encode (chars : List Char) : List UInt8 := chars.flatMap String.utf8EncodeChar

theorem encode_cons (char : Char) (chars : List Char) :
    encode (char :: chars) = String.utf8EncodeChar char ++ encode chars :=
  List.flatMap_cons

theorem toUTF8_eq_encode (text : String) : text.toUTF8.data.toList = encode text.toList := by
  obtain ⟨chars, rfl⟩ := text.exists_eq_ofList
  rw [String.toUTF8_eq_toByteArray, String.toByteArray_ofList, String.toList_ofList,
    List.utf8Encode, List.data_toByteArray, encode]

/-- Bytes that encode a text. -/
def Encoded (bytes : List UInt8) : Prop := ∃ chars, encode chars = bytes

/-- Where an encoding starts, it says what character it is, whatever follows. -/
theorem encoding_append_inj {other : Char}
    (heq : String.utf8EncodeChar char ++ bytes = String.utf8EncodeChar other ++ rest) :
    char = other ∧ bytes = rest := by
  have hdecoded := congrArg (fun all : List UInt8 => all.toByteArray.utf8DecodeChar? 0) heq
  simp only [List.toByteArray_append, ByteArray.utf8DecodeChar?_utf8EncodeChar_append] at hdecoded
  obtain rfl := Option.some.inj hdecoded
  exact ⟨rfl, List.append_cancel_left heq⟩

/-- Texts with the same bytes are the same. -/
theorem encode_injective (heq : encode chars = encode others) : chars = others := by
  have htexts : String.ofList chars = String.ofList others := by
    rw [← String.toByteArray_inj, String.toByteArray_ofList, String.toByteArray_ofList]
    exact congrArg List.toByteArray heq
  exact String.ofList_injective htexts

/-! ## Where encodings end -/

/-- No encoding of a character is at the start of the bytes. -/
def Stuck (bytes : List UInt8) : Prop := ∀ char, ¬String.utf8EncodeChar char <+: bytes

theorem encode_prefix_of_stuck (hstuck : Stuck rest)
    (hpart : encode others <+: encode chars ++ rest) : encode others <+: encode chars := by
  induction others generalizing chars with
  | nil => exact List.nil_prefix
  | cons other others ih =>
      rw [encode_cons] at hpart ⊢
      cases chars with
      | nil => exact absurd ((List.prefix_append _ _).trans hpart) (hstuck other)
      | cons char chars =>
          rw [encode_cons] at hpart ⊢
          obtain ⟨after, hafter⟩ := hpart
          rw [List.append_assoc, List.append_assoc] at hafter
          obtain ⟨rfl, hrest⟩ := encoding_append_inj hafter
          exact (List.prefix_append_right_inj _).mpr (ih ⟨after, hrest⟩)

/-- The longest part at the start of bytes that has a property. -/
structure IsLongest (property : List UInt8 → Prop) (bytes start : List UInt8) : Prop where
  starts : start <+: bytes
  holds : property start
  longest : ∀ other, other <+: bytes → property other → other.length ≤ start.length

theorem IsLongest.unique {property : List UInt8 → Prop} {first second : List UInt8}
    (hfirst : IsLongest property bytes first) (hsecond : IsLongest property bytes second) :
    first = second := by
  have hle := hsecond.longest first hfirst.starts hfirst.holds
  have hge := hfirst.longest second hsecond.starts hsecond.holds
  exact (List.prefix_of_prefix_length_le hfirst.starts hsecond.starts hle).eq_of_length_le hge

/-- A text is the longest one at the start of bytes if no character follows it. -/
theorem isLongest_encode (hstuck : Stuck rest) :
    IsLongest Encoded (encode chars ++ rest) (encode chars) where
  starts := List.prefix_append _ _
  holds := ⟨chars, rfl⟩
  longest := by
    rintro part hpart ⟨others, rfl⟩
    exact (encode_prefix_of_stuck hstuck hpart).length_le

/-- The longest text at the start of bytes, and the rest of them. -/
structure Parts (bytes text rest : List UInt8) : Prop where
  bytes_eq : bytes = text ++ rest
  longest : IsLongest Encoded bytes text

theorem Parts.unique {text other otherRest : List UInt8} (hparts : Parts bytes text rest)
    (hothers : Parts bytes other otherRest) : text = other ∧ rest = otherRest := by
  obtain rfl := hparts.longest.unique hothers.longest
  exact ⟨rfl, List.append_cancel_left (hparts.bytes_eq.symm.trans hothers.bytes_eq)⟩

/-- Nothing is left of bytes that encode a text. -/
theorem Parts.rest_eq_nil {text : List UInt8} (hparts : Parts bytes text rest)
    (hencoded : Encoded bytes) : rest = [] := by
  have hlength := hparts.longest.longest bytes List.prefix_rfl hencoded
  rw [hparts.bytes_eq, List.length_append] at hlength
  exact List.length_eq_zero_iff.mp (by omega)

/-! ## Characters that are cut off -/

/-- Bytes with which the encoding of a character begins, but does not end. -/
def Begun (bytes : List UInt8) : Prop :=
  ∃ char, bytes <+: String.utf8EncodeChar char ∧ bytes ≠ String.utf8EncodeChar char

theorem begun_nil : Begun [] :=
  ⟨default, List.nil_prefix, String.utf8EncodeChar_ne_nil.symm⟩

theorem Begun.length_le (hbegun : Begun bytes) : bytes.length ≤ 3 := by
  obtain ⟨char, hbytes, hne⟩ := hbegun
  have hshort : bytes.length < (String.utf8EncodeChar char).length :=
    Nat.lt_of_not_le fun hlong => hne (hbytes.eq_of_length_le hlong)
  rw [String.length_utf8EncodeChar] at hshort
  have hsize := char.utf8Size_le_four
  omega

/-- What is cut off holds no whole character. -/
theorem Begun.stuck (hbegun : Begun bytes) : Stuck bytes := by
  intro other hother
  obtain ⟨char, hbytes, hne⟩ := hbegun
  obtain ⟨after, hafter⟩ := hother.trans hbytes
  obtain ⟨rfl, -⟩ := encoding_append_inj (hafter.trans (List.append_nil _).symm)
  exact hne (hbytes.eq_of_length_le hother.length_le)

section Broken

/- A character begins, and no character goes on with the next byte. -/
variable (hbegun : Begun start) (hbreak : ∀ char, ¬start ++ [byte] <+: String.utf8EncodeChar char)

include hbegun hbreak

theorem isLongest_begun : IsLongest Begun (start ++ byte :: rest) start where
  starts := List.prefix_append _ _
  holds := hbegun
  longest := by
    rintro part hpart ⟨char, hchar, -⟩
    obtain hshort | hpassed := prefix_or_passes hpart
    · exact hshort.length_le
    · exact absurd (hpassed.trans hchar) (hbreak char)

theorem not_begun_of_broken : ¬Begun (start ++ byte :: rest) := by
  intro hwhole
  have hlength := (isLongest_begun hbegun hbreak).longest _ List.prefix_rfl hwhole
  rw [List.length_append, List.length_cons] at hlength
  omega

theorem stuck_of_broken : Stuck (start ++ byte :: rest) := by
  intro char hchar
  obtain hshort | hpassed := prefix_or_passes hchar
  · exact hbegun.stuck char hshort
  · exact hbreak char hpassed

end Broken

/-! ## The bytes of an encoding -/

/-- The number of bytes that encode the character of a number. -/
def width (value : Nat) : Nat :=
  if value ≤ 0x7f then 1 else if value ≤ 0x7ff then 2 else if value ≤ 0xffff then 3 else 4

/-- The first byte, which has the highest bits of the number. -/
def lead (value : Nat) : Nat :=
  if value ≤ 0x7f then value
  else if value ≤ 0x7ff then value / 64 + 0xc0
  else if value ≤ 0xffff then value / 4096 + 0xe0
  else value / 262144 + 0xf0

/-- A later byte, which has the next six bits, if so many bytes are left from it on. -/
def continuation (value left : Nat) : Nat := value / 64 ^ (left - 1) % 64 + 0x80

theorem utf8Size_eq_width (char : Char) : char.utf8Size = width char.toNat := by
  simp only [Char.utf8Size, width, UInt32.le_iff_toNat_le, Char.toNat_val]
  rfl

/-- The numbers of characters end before 0x110000, and leave out those from 0xd800 to 0xdfff. -/
theorem toNat_valid (char : Char) :
    char.toNat < 0xd800 ∨ 0xdfff < char.toNat ∧ char.toNat < 0x110000 :=
  char.valid

theorem lead_lt (char : Char) : lead char.toNat < 256 := by
  have hvalid := toNat_valid char
  unfold lead
  split_ifs <;> omega

theorem continuation_lt (value left : Nat) : continuation value left < 256 := by
  unfold continuation
  omega

theorem ofNat_eq_iff {number : Nat} (hnumber : number < 256) :
    UInt8.ofNat number = byte ↔ byte.toNat = number := by
  rw [← UInt8.toNat_inj, UInt8.toNat_ofNat', Nat.mod_eq_of_lt hnumber, eq_comm]

theorem getElem?_encoding_zero :
    (String.utf8EncodeChar char)[0]? = some byte ↔ byte.toNat = lead char.toNat := by
  have hlead : (String.utf8EncodeChar char)[0]? = some (.ofNat (lead char.toNat)) := by
    have hvalid := toNat_valid char
    rw [← Char.toNat_val] at hvalid ⊢
    simp only [String.utf8EncodeChar, lead]
    split_ifs
    · rfl
    · rw [List.getElem?_cons_zero, Nat.mod_eq_of_lt (by omega)]
    · rw [List.getElem?_cons_zero, Nat.mod_eq_of_lt (by omega)]
    · rw [List.getElem?_cons_zero, Nat.mod_eq_of_lt (by omega)]
  rw [hlead, Option.some.injEq, ofNat_eq_iff (lead_lt char)]

theorem getElem?_encoding {index : Nat} (hindex : 0 < index) (hwidth : index < width char.toNat) :
    (String.utf8EncodeChar char)[index]? = some byte ↔
      byte.toNat = continuation char.toNat (width char.toNat - index) := by
  have hbyte : (String.utf8EncodeChar char)[index]? =
      some (.ofNat (continuation char.toNat (width char.toNat - index))) := by
    rw [← Char.toNat_val] at hwidth ⊢
    simp only [String.utf8EncodeChar, width, continuation] at hwidth ⊢
    -- In each width, each later position is looked at.
    split_ifs at hwidth ⊢ <;> interval_cases index <;> simp
  rw [hbyte, Option.some.injEq, ofNat_eq_iff (continuation_lt _ _)]

theorem singleton_prefix_iff :
    [byte] <+: String.utf8EncodeChar char ↔ byte.toNat = lead char.toNat := by
  rw [← getElem?_encoding_zero]
  exact concat_prefix_iff.trans (and_iff_right List.nil_prefix)

end Inference.Source.Utf8
