/-!
# Decoding UTF-8

A character is encoded in one to four bytes. The first byte says how many follow
and what values the second one may have; with that, no character has a second
encoding, and nothing but a character has one. Decoding stops at the first place
where no encoding of a character goes on, and says where the bytes that cannot be
decoded start.
-/

namespace Inference.Source.Utf8

/-- Why bytes are no encoding of a text. The index is that of the first byte that belongs to no
encoded character. Either the bytes end within a character, or a number of bytes that start a
character are not followed by what would complete it; a byte that starts no character counts as
one such byte. -/
inductive DecodeError where
  | incomplete (index : Nat)
  | invalid (length index : Nat)
  deriving DecidableEq

/-- What an error tells the user. -/
def DecodeError.message : DecodeError → String
  | incomplete index => s!"incomplete utf-8 byte sequence from index {index}"
  | invalid length index => s!"invalid utf-8 sequence of {length} bytes from index {index}"

/-- A character of which some bytes are read: how many they are, how many follow, the bounds of
the next one, and the bits of the character so far. -/
structure Partial where
  read : Nat
  missing : Nat
  low : Nat
  high : Nat
  bits : Nat
  deriving DecidableEq

/-- What the first byte of a character says, unless no character starts with it. -/
def start? (byte : UInt8) : Option Partial :=
  let first := byte.toNat
  if first < 0x80 then some ⟨1, 0, 0x80, 0xbf, first⟩
  else if first < 0xc2 then none
  else if first < 0xe0 then some ⟨1, 1, 0x80, 0xbf, first - 0xc0⟩
  else if first = 0xe0 then some ⟨1, 2, 0xa0, 0xbf, 0⟩
  else if first = 0xed then some ⟨1, 2, 0x80, 0x9f, 0xd⟩
  else if first < 0xf0 then some ⟨1, 2, 0x80, 0xbf, first - 0xe0⟩
  else if first = 0xf0 then some ⟨1, 3, 0x90, 0xbf, 0⟩
  else if first < 0xf4 then some ⟨1, 3, 0x80, 0xbf, first - 0xf0⟩
  else if first = 0xf4 then some ⟨1, 3, 0x80, 0x8f, 4⟩
  else none

/-- The character with its next byte, unless the character does not go on with it. -/
def Partial.next? (state : Partial) (byte : UInt8) : Option Partial :=
  if state.low ≤ byte.toNat ∧ byte.toNat ≤ state.high then
    some ⟨state.read + 1, state.missing - 1, 0x80, 0xbf, state.bits * 64 + (byte.toNat - 0x80)⟩
  else none

/-- Decode bytes. The index is that of the first byte after the characters decoded so far, and
the state is that of the character that starts there, if some of its bytes are read. -/
def decodeFrom (index : Nat) : Option Partial → List UInt8 → Except DecodeError (List Char)
  | none, [] => .ok []
  | some _, [] => .error (.incomplete index)
  | state, byte :: bytes =>
      let continued :=
        match state with
        | none => start? byte
        | some state => state.next? byte
      match continued with
      | none => .error (.invalid ((state.map (·.read)).getD 1) index)
      | some state =>
          if state.missing = 0 then
            (decodeFrom (index + state.read) none bytes).map (Char.ofNat state.bits :: ·)
          else decodeFrom index (some state) bytes

/-- The text that bytes encode. -/
def decode (bytes : List UInt8) : Except DecodeError String :=
  (decodeFrom 0 none bytes).map String.ofList

end Inference.Source.Utf8
