import Inference.Proofs.Utf8.Encodings

/-!
# Partly read characters

The state of a partly read character stands for the characters whose encodings start with
the bytes read (`Describes`). A first byte leaves those that start with it
(`describes_of_start`), and each later byte those that go on with it (`Describes.next`). Some
character is left as long as bytes are missing (`Describes.begun`), and a single one when none
is (`Describes.encoding_eq`).
-/

namespace Inference.Source.Utf8

namespace Partial

variable {state further : Partial} {byte : UInt8} {taken : List UInt8}

/-- Whether a number is one of those that a partly read character may have: the bits read are its
leading ones, and the next six are within the bounds. -/
def Admits (state : Partial) (value : Nat) : Prop :=
  value / 64 ^ state.missing = state.bits ∧
    (state.missing ≠ 0 →
      state.low ≤ continuation value state.missing ∧ continuation value state.missing ≤ state.high)

/-- If bytes are missing, six bits of the number follow those that are read. -/
theorem admits_iff_of_missing (hmissing : state.missing ≠ 0) (value : Nat) :
    state.Admits value ↔
      value / 64 ^ (state.missing - 1) / 64 = state.bits ∧
        state.low ≤ continuation value state.missing ∧
          continuation value state.missing ≤ state.high := by
  rw [Admits, Nat.div_div_eq_div_mul, ← Nat.pow_succ, Nat.succ_eq_add_one,
    Nat.sub_one_add_one hmissing, forall_prop_of_true hmissing]

/-- A state describes the bytes read if it admits the characters whose encodings start with them,
and nothing else. -/
structure Describes (state : Partial) (taken : List UInt8) : Prop where
  length_eq : taken.length = state.read
  read_pos : 0 < state.read
  bounds : 0x80 ≤ state.low ∧ state.low ≤ state.high ∧ state.high ≤ 0xbf
  prefix_iff : ∀ char : Char, taken <+: String.utf8EncodeChar char ↔ state.Admits char.toNat
  valid : ∀ value, state.Admits value → value.isValidChar
  width_eq : ∀ value, state.Admits value → width value = state.read + state.missing

/-! ## The first byte -/

/-- The states behind a first byte, by the number of bytes of the character. The bounds of the
second byte leave out what has a shorter encoding and what is no character. -/
inductive Opens (first : Nat) : Partial → Prop where
  | single (hfirst : first < 0x80) : Opens first ⟨1, 0, 0x80, 0xbf, first⟩
  | double {bits : Nat} (hbits : first = bits + 0xc0 ∧ 2 ≤ bits ∧ bits < 0x20) :
      Opens first ⟨1, 1, 0x80, 0xbf, bits⟩
  | triple {low high bits : Nat} (hbits : first = bits + 0xe0 ∧ bits < 0x10)
      (hlow : bits = 0 ∧ low = 0xa0 ∨ bits ≠ 0 ∧ low = 0x80)
      (hhigh : bits = 0xd ∧ high = 0x9f ∨ bits ≠ 0xd ∧ high = 0xbf) :
      Opens first ⟨1, 2, low, high, bits⟩
  | quadruple {low high bits : Nat} (hbits : first = bits + 0xf0 ∧ bits < 5)
      (hlow : bits = 0 ∧ low = 0x90 ∨ bits ≠ 0 ∧ low = 0x80)
      (hhigh : bits = 4 ∧ high = 0x8f ∨ bits ≠ 4 ∧ high = 0xbf) :
      Opens first ⟨1, 3, low, high, bits⟩

theorem opens_of_start (hstart : start? byte = some state) : Opens byte.toNat state := by
  revert hstart
  fun_cases start? byte with
  | case1 first hfirst =>
      rintro ⟨⟩
      exact .single hfirst
  | case2 | case10 => exact nofun
  | case3 =>
      rintro ⟨⟩
      exact .double (by omega)
  | case4 | case5 | case6 =>
      rintro ⟨⟩
      exact .triple (by omega) (by omega) (by omega)
  | case7 | case8 | case9 =>
      rintro ⟨⟩
      exact .quadruple (by omega) (by omega) (by omega)

theorem start?_eq_none_iff : start? byte = none ↔
    0x80 ≤ byte.toNat ∧ byte.toNat < 0xc2 ∨ 0xf4 < byte.toNat := by
  fun_cases start? byte <;> simp only [reduceCtorEq, true_iff, false_iff] <;> omega

theorem Opens.bounds {first : Nat} (hopens : Opens first state) :
    state.read = 1 ∧ 0x80 ≤ state.low ∧ state.low ≤ state.high ∧ state.high ≤ 0xbf := by
  cases hopens <;> dsimp only <;> omega

/-- A first byte admits the characters whose encodings start with it. -/
theorem Opens.admits_iff {first : Nat} (hopens : Opens first state) (value : Nat) :
    state.Admits value ↔ value.isValidChar ∧ first = lead value := by
  -- Each row is compared with the numbers of each width.
  cases hopens <;> simp only [Admits, continuation, Nat.isValidChar, lead] <;> split_ifs <;> omega

theorem Opens.width_eq {first value : Nat} (hopens : Opens first state)
    (hadmits : state.Admits value) : width value = state.read + state.missing := by
  revert hadmits
  cases hopens <;> simp only [Admits, continuation, width] <;> split_ifs <;> omega

/-- No character starts with a byte that is refused. -/
theorem ne_lead_of_start?_eq_none (hstart : start? byte = none) (char : Char) :
    byte.toNat ≠ lead char.toNat := by
  have hvalid := toNat_valid char
  have hbyte := start?_eq_none_iff.mp hstart
  unfold lead
  split_ifs <;> omega

theorem describes_of_start (hstart : start? byte = some state) : state.Describes [byte] := by
  have hopens := opens_of_start hstart
  obtain ⟨hread, hbounds⟩ := hopens.bounds
  exact {
    length_eq := hread.symm
    read_pos := by omega
    bounds := hbounds
    prefix_iff := fun char => by
      rw [hopens.admits_iff, singleton_prefix_iff, and_iff_right]
      exact char.valid
    valid := fun value hadmits => ((hopens.admits_iff value).mp hadmits).1
    width_eq := fun _ => hopens.width_eq }

/-! ## The bytes after it -/

theorem next?_eq_some_iff : state.next? byte = some further ↔
    (state.low ≤ byte.toNat ∧ byte.toNat ≤ state.high) ∧
      (⟨state.read + 1, state.missing - 1, 0x80, 0xbf, state.bits * 64 + (byte.toNat - 0x80)⟩ :
        Partial) = further := by
  rw [next?, Option.ite_none_right_eq_some, Option.some.injEq]

theorem next?_eq_none_iff :
    state.next? byte = none ↔ ¬(state.low ≤ byte.toNat ∧ byte.toNat ≤ state.high) := by
  simp only [next?, ite_eq_right_iff, reduceCtorEq, imp_false]

namespace Describes

variable (hdescribes : state.Describes taken)

include hdescribes

/-- Of the characters that a state admits, those with the byte as their next one remain. -/
theorem concat_prefix_iff (hmissing : state.missing ≠ 0) (byte : UInt8) (char : Char) :
    taken ++ [byte] <+: String.utf8EncodeChar char ↔
      state.Admits char.toNat ∧ byte.toNat = continuation char.toNat state.missing := by
  rw [Inference.concat_prefix_iff, hdescribes.prefix_iff, hdescribes.length_eq]
  refine and_congr_right fun hadmits => ?_
  have hwidth := hdescribes.width_eq char.toNat hadmits
  have hleft : width char.toNat - state.read = state.missing := by omega
  rw [getElem?_encoding hdescribes.read_pos (by omega), hleft]

theorem admits_next_iff (hmissing : state.missing ≠ 0) (hnext : state.next? byte = some further)
    (value : Nat) :
    further.Admits value ↔
      state.Admits value ∧ byte.toNat = continuation value state.missing := by
  obtain ⟨hlow, -, hhigh⟩ := hdescribes.bounds
  obtain ⟨hbyte, rfl⟩ := next?_eq_some_iff.mp hnext
  rw [admits_iff_of_missing hmissing]
  simp only [Admits, continuation]
  -- What matters are the bits without those of the bytes that are still missing behind this one.
  generalize value / 64 ^ (state.missing - 1) = digits
  omega

protected theorem next (hmissing : state.missing ≠ 0) (hnext : state.next? byte = some further) :
    further.Describes (taken ++ [byte]) := by
  have hadmits := hdescribes.admits_next_iff hmissing hnext
  obtain ⟨-, rfl⟩ := next?_eq_some_iff.mp hnext
  exact {
    length_eq := by rw [List.length_append, hdescribes.length_eq, List.length_singleton]
    read_pos := Nat.succ_pos _
    bounds := by simp
    prefix_iff := fun char => by rw [hdescribes.concat_prefix_iff hmissing, hadmits]
    valid := fun value hvalue => hdescribes.valid value ((hadmits value).mp hvalue).1
    width_eq := fun value hvalue => by
      rw [hdescribes.width_eq value ((hadmits value).mp hvalue).1]
      dsimp only
      omega }

theorem not_prefix_of_next?_eq_none (hmissing : state.missing ≠ 0)
    (hnext : state.next? byte = none) (char : Char) :
    ¬taken ++ [byte] <+: String.utf8EncodeChar char := by
  intro hstarts
  obtain ⟨⟨-, hbounds⟩, hbyte⟩ := (hdescribes.concat_prefix_iff hmissing byte char).mp hstarts
  rw [← hbyte] at hbounds
  exact next?_eq_none_iff.mp hnext (hbounds hmissing)

theorem exists_char {value : Nat} (hadmits : state.Admits value) :
    taken <+: String.utf8EncodeChar (Char.ofNat value) ∧
      (String.utf8EncodeChar (Char.ofNat value)).length = taken.length + state.missing := by
  have hvalue : (Char.ofNat value).toNat = value := by
    rw [Char.ofNat, dif_pos (hdescribes.valid value hadmits)]
    rfl
  constructor
  · rw [hdescribes.prefix_iff, hvalue]
    exact hadmits
  · rw [String.length_utf8EncodeChar, utf8Size_eq_width, hvalue, hdescribes.width_eq value hadmits,
      hdescribes.length_eq]

/-- If no byte is missing, the bits are the number of the character. -/
theorem encoding_eq (hmissing : state.missing = 0) :
    String.utf8EncodeChar (Char.ofNat state.bits) = taken := by
  have hadmits : state.Admits state.bits := by
    refine ⟨?_, fun hne => absurd hmissing hne⟩
    rw [hmissing, Nat.pow_zero, Nat.div_one]
  obtain ⟨hstarts, hlength⟩ := hdescribes.exists_char hadmits
  exact (hstarts.eq_of_length (by omega)).symm

/-- If bytes are missing, some character goes on. -/
theorem begun (hmissing : state.missing ≠ 0) : Begun taken := by
  obtain ⟨hlow, hle, hhigh⟩ := hdescribes.bounds
  have hadmits :
      state.Admits ((state.bits * 64 + (state.low - 0x80)) * 64 ^ (state.missing - 1)) := by
    rw [admits_iff_of_missing hmissing, continuation,
      Nat.mul_div_cancel _ (Nat.pow_pos (by decide))]
    omega
  obtain ⟨hstarts, hlength⟩ := hdescribes.exists_char hadmits
  refine ⟨_, hstarts, fun heq => hmissing ?_⟩
  rw [← heq] at hlength
  omega

end Describes

end Partial

end Inference.Source.Utf8
