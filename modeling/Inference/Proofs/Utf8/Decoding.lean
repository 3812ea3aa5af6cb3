import Inference.Proofs.Utf8.Characters
import Inference.Source.File

/-!
# Decoding

What is read of a character and the bytes that follow are always what is still to be decoded
(`decodeFrom_outcome`). So bytes are decoded to the only text that they encode, and if there is
none, the error reports where the longest encoded text ends and what follows it (`Reports`).
Files are loaded accordingly (`loads_encoded_texts`).
-/

namespace Inference.Source

namespace Utf8

variable {state : Option Partial} {following : Partial} {byte : UInt8} {taken bytes : List UInt8}
  {index : Nat}

/-! ## Decoding bytes -/

/-- The state after the next byte: it goes on with a character, or starts one. -/
def advance? : Option Partial → UInt8 → Option Partial
  | none, byte => start? byte
  | some state, byte => state.next? byte

theorem decodeFrom_cons_of_none (hnone : advance? state byte = none) :
    decodeFrom index state (byte :: bytes) =
      .error (.invalid ((state.map (·.read)).getD 1) index) := by
  cases state <;> rw [decodeFrom] <;> dsimp only [advance?] at hnone <;> rw [hnone]

theorem decodeFrom_cons_of_some (hsome : advance? state byte = some following) :
    decodeFrom index state (byte :: bytes) =
      if following.missing = 0 then
        (decodeFrom (index + following.read) none bytes).map (Char.ofNat following.bits :: ·)
      else decodeFrom index (some following) bytes := by
  cases state <;> rw [decodeFrom] <;> dsimp only [advance?] at hsome <;> rw [hsome]

/-- The bytes read of the character that is next: none, or those that a state describes in which
bytes are missing. -/
def Reads : Option Partial → List UInt8 → Prop
  | none, taken => taken = []
  | some state, taken => state.Describes taken ∧ state.missing ≠ 0

namespace Reads

variable (hreads : Reads state taken)

include hreads

theorem begun : Begun taken := by
  cases state with
  | none =>
      obtain rfl := hreads
      exact begun_nil
  | some state => exact hreads.1.begun hreads.2

theorem describes_advance (hsome : advance? state byte = some following) :
    following.Describes (taken ++ [byte]) := by
  cases state with
  | none =>
      obtain rfl := hreads
      exact Partial.describes_of_start hsome
  | some state => exact hreads.1.next hreads.2 hsome

theorem not_starts_of_advance?_eq_none (hnone : advance? state byte = none) (char : Char) :
    ¬taken ++ [byte] <+: String.utf8EncodeChar char := by
  cases state with
  | none =>
      obtain rfl := hreads
      exact fun hstarts => Partial.ne_lead_of_start?_eq_none hnone char
        (singleton_prefix_iff.mp hstarts)
  | some state => exact hreads.1.not_prefix_of_next?_eq_none hreads.2 hnone char

theorem max_length : max 1 taken.length = (state.map (·.read)).getD 1 := by
  cases state with
  | none =>
      obtain rfl := hreads
      rfl
  | some state =>
      have hpos := hreads.1.read_pos
      rw [hreads.1.length_eq, Option.map_some, Option.getD_some]
      omega

end Reads

/-- What decoding bytes that start at an index comes to: they are a text; or they end, behind a
text, within a character; or a character begins there and does not go on. -/
inductive Outcome (index : Nat) : List UInt8 → Except DecodeError (List Char) → Prop where
  | decoded (chars : List Char) : Outcome index (encode chars) (.ok chars)
  | ended (chars : List Char) {rest : List UInt8} (hrest : rest ≠ []) (hbegun : Begun rest) :
      Outcome index (encode chars ++ rest)
        (.error (.incomplete (index + (encode chars).length)))
  | broken (chars : List Char) {start rest : List UInt8} {byte : UInt8} (hbegun : Begun start)
      (hbreak : ∀ char, ¬start ++ [byte] <+: String.utf8EncodeChar char) :
      Outcome index (encode chars ++ (start ++ byte :: rest))
        (.error (.invalid (max 1 start.length) (index + (encode chars).length)))

theorem Outcome.cons {char : Char} {outcome : Except DecodeError (List Char)}
    (houtcome : Outcome (index + (String.utf8EncodeChar char).length) bytes outcome) :
    Outcome index (String.utf8EncodeChar char ++ bytes) (outcome.map (char :: ·)) := by
  have hlength (chars : List Char) :
      index + (String.utf8EncodeChar char).length + (encode chars).length =
        index + (encode (char :: chars)).length := by
    rw [encode_cons, List.length_append, Nat.add_assoc]
  cases houtcome with
  | decoded chars =>
      rw [← encode_cons]
      exact .decoded (char :: chars)
  | ended chars hrest hbegun =>
      rw [← List.append_assoc, ← encode_cons, hlength]
      exact .ended (char :: chars) hrest hbegun
  | broken chars hbegun hbreak =>
      rw [← List.append_assoc, ← encode_cons, hlength]
      exact .broken (char :: chars) hbegun hbreak

/-- Each character that is complete is left behind, so that what is read and the bytes that
follow are always what is still to be decoded. -/
theorem decodeFrom_outcome (hreads : Reads state taken) :
    Outcome index (taken ++ bytes) (decodeFrom index state bytes) := by
  induction bytes generalizing index state taken with
  | nil =>
      rw [List.append_nil]
      cases state with
      | none =>
          obtain rfl := hreads
          exact .decoded []
      | some state =>
          refine .ended [] ?_ hreads.begun
          exact List.ne_nil_of_length_pos (hreads.1.length_eq ▸ hreads.1.read_pos)
  | cons byte bytes ih =>
      cases hadvance : advance? state byte with
      | none =>
          rw [decodeFrom_cons_of_none hadvance, ← hreads.max_length]
          exact .broken [] hreads.begun (hreads.not_starts_of_advance?_eq_none hadvance)
      | some following =>
          have hdescribes := hreads.describes_advance hadvance
          rw [decodeFrom_cons_of_some hadvance, List.append_cons]
          by_cases hmissing : following.missing = 0
          · have hchar := hdescribes.encoding_eq hmissing
            rw [if_pos hmissing, ← hdescribes.length_eq, ← hchar]
            have hreads : Reads none [] := rfl
            exact .cons (ih hreads)
          · rw [if_neg hmissing]
            exact ih ⟨hdescribes, hmissing⟩

/-! ## Texts and errors -/

/-- What an error says of bytes. Its index is where the longest encoded text at their start ends.
The bytes from there on are incomplete if a character begins with them and does not end. They are
invalid otherwise, and their length is that of the longest part of them that begins a character; a
byte that begins none has length one. -/
inductive Reports (bytes : List UInt8) : DecodeError → Prop where
  | incomplete {text rest : List UInt8} (hparts : Parts bytes text rest) (hrest : rest ≠ [])
      (hbegun : Begun rest) : Reports bytes (.incomplete text.length)
  | invalid {text rest start : List UInt8} (hparts : Parts bytes text rest) (hbegun : ¬Begun rest)
      (hstart : IsLongest Begun rest start) :
      Reports bytes (.invalid (max 1 start.length) text.length)

theorem Reports.not_encoded {error : DecodeError} (hreports : Reports bytes error) :
    ¬Encoded bytes := by
  intro hencoded
  cases hreports with
  | incomplete hparts hrest hbegun => exact hrest (hparts.rest_eq_nil hencoded)
  | invalid hparts hbegun hstart =>
      obtain rfl := hparts.rest_eq_nil hencoded
      exact hbegun begun_nil

theorem Reports.unique {first second : DecodeError} (hfirst : Reports bytes first)
    (hsecond : Reports bytes second) : first = second := by
  cases hfirst with
  | incomplete hparts hrest hbegun =>
      cases hsecond with
      | incomplete hothers => rw [(hparts.unique hothers).1]
      | invalid hothers hnot =>
          obtain ⟨-, rfl⟩ := hparts.unique hothers
          exact absurd hbegun hnot
  | invalid hparts hnot hstart =>
      cases hsecond with
      | incomplete hothers hrest hbegun =>
          obtain ⟨-, rfl⟩ := hparts.unique hothers
          exact absurd hbegun hnot
      | invalid hothers _ hother =>
          obtain ⟨rfl, rfl⟩ := hparts.unique hothers
          rw [hstart.unique hother]

/-- Invalid bytes are one to three bytes long, because no encoding is longer than four. -/
theorem Reports.length_bounds {length index : Nat}
    (hreports : Reports bytes (.invalid length index)) : 1 ≤ length ∧ length ≤ 3 := by
  cases hreports with
  | invalid hparts hbegun hstart =>
      have hshort := hstart.holds.length_le
      omega

theorem Outcome.encode_eq {chars : List Char} (houtcome : Outcome 0 bytes (.ok chars)) :
    encode chars = bytes := by
  cases houtcome with
  | decoded => rfl

theorem Outcome.reports {error : DecodeError} (houtcome : Outcome 0 bytes (.error error)) :
    Reports bytes error := by
  cases houtcome with
  | ended chars hrest hbegun =>
      rw [Nat.zero_add]
      exact .incomplete ⟨rfl, isLongest_encode hbegun.stuck⟩ hrest hbegun
  | broken chars hbegun hbreak =>
      rw [Nat.zero_add]
      exact .invalid ⟨rfl, isLongest_encode (stuck_of_broken hbegun hbreak)⟩
        (not_begun_of_broken hbegun hbreak) (isLongest_begun hbegun hbreak)

/-- Either bytes are a text, or an error reports on them. -/
theorem decode_cases (bytes : List UInt8) :
    (∃ text, decode bytes = .ok text ∧ encode text.toList = bytes) ∨
      ∃ error, decode bytes = .error error ∧ Reports bytes error := by
  have houtcome : Outcome 0 ([] ++ bytes) (decodeFrom 0 none bytes) := decodeFrom_outcome rfl
  rw [List.nil_append] at houtcome
  unfold decode
  cases hdecoded : decodeFrom 0 none bytes with
  | ok chars =>
      rw [hdecoded] at houtcome
      refine .inl ⟨String.ofList chars, rfl, ?_⟩
      rw [String.toList_ofList]
      exact houtcome.encode_eq
  | error error =>
      rw [hdecoded] at houtcome
      exact .inr ⟨error, rfl, houtcome.reports⟩

theorem decode_eq_ok_iff {text : String} :
    decode bytes = .ok text ↔ encode text.toList = bytes := by
  obtain ⟨other, hdecoded, hother⟩ | ⟨error, hdecoded, hreports⟩ := decode_cases bytes
  · rw [hdecoded, Except.ok.injEq]
    constructor
    · rintro rfl
      exact hother
    · intro htext
      exact String.toList_inj.mp (encode_injective (hother.trans htext.symm))
  · rw [hdecoded]
    exact ⟨nofun, fun htext => absurd ⟨text.toList, htext⟩ hreports.not_encoded⟩

theorem decode_eq_error_iff {error : DecodeError} :
    decode bytes = .error error ↔ Reports bytes error := by
  obtain ⟨text, hdecoded, htext⟩ | ⟨other, hdecoded, hreports⟩ := decode_cases bytes
  · rw [hdecoded]
    exact ⟨nofun, fun hreports => absurd ⟨text.toList, htext⟩ hreports.not_encoded⟩
  · rw [hdecoded, Except.error.injEq]
    constructor
    · rintro rfl
      exact hreports
    · exact hreports.unique

end Utf8

namespace SourceFile

variable {read : Path → Except ReadFailure (List UInt8)} {path : Path} {bytes : List UInt8}

theorem load_eq_ok_iff (hread : read path = .ok bytes) {file : SourceFile} :
    load read path = .ok file ↔ file.path = path ∧ Utf8.decode bytes = .ok file.content := by
  obtain ⟨content, place⟩ := file
  simp only [load, hread]
  cases Utf8.decode bytes with
  | error error => exact ⟨nofun, nofun⟩
  | ok text => simp only [Except.ok.injEq, mk.injEq, eq_comm, and_comm]

theorem load_eq_error_iff (hread : read path = .ok bytes) {error : LoadError} :
    load read path = .error error ↔
      ∃ report, error = .decode report ∧ Utf8.decode bytes = .error report := by
  simp only [load, hread]
  cases Utf8.decode bytes with
  | error report => simp [eq_comm]
  | ok text => simp

/-- Let the bytes of a file be read. The file is loaded if and only if its bytes encode a text, and
with the text whose bytes they are, no more and no fewer. Otherwise an error reports on them:
behind the longest text at their start, either the rest is the beginning of a character, or the
error names the length, from one to three, of the longest part of it that begins a character. -/
theorem loads_encoded_texts (hread : read path = .ok bytes) :
    ((∃ file, load read path = .ok file) ↔ Utf8.Encoded bytes) ∧
    (∀ file, load read path = .ok file →
      file.path = path ∧ readAll file = file.content ∧
        file.content.toUTF8.data.toList = bytes) ∧
    (∀ error, load read path = .error error ↔
      ∃ report, error = .decode report ∧ Utf8.Reports bytes report) ∧
    ∀ length index, Utf8.Reports bytes (.invalid length index) → 1 ≤ length ∧ length ≤ 3 := by
  have hloaded : ∀ file, load read path = .ok file ↔
      file.path = path ∧ Utf8.encode file.content.toList = bytes := by
    intro file
    rw [load_eq_ok_iff hread, Utf8.decode_eq_ok_iff]
  refine ⟨⟨?_, ?_⟩, fun file hfile => ?_, fun error => ?_, fun length index => ?_⟩
  · rintro ⟨file, hfile⟩
    exact ⟨file.content.toList, ((hloaded file).mp hfile).2⟩
  · rintro ⟨chars, hchars⟩
    refine ⟨⟨String.ofList chars, path⟩, (hloaded _).mpr ⟨rfl, ?_⟩⟩
    rw [String.toList_ofList, hchars]
  · obtain ⟨hpath, hbytes⟩ := (hloaded file).mp hfile
    exact ⟨hpath, rfl, (Utf8.toUTF8_eq_encode file.content).trans hbytes⟩
  · simp only [load_eq_error_iff hread, Utf8.decode_eq_error_iff]
  · exact Utf8.Reports.length_bounds

/-- A file with a byte order mark, a character that is zero and a carriage return, and one where
a character of two bytes is followed by three bytes of a character and a letter. -/
theorem loads_encoded_texts_broken :
    ∃ read : Path → Except ReadFailure (List UInt8),
      read ⟨"marked"⟩ = .ok [0xef, 0xbb, 0xbf, 0x00, 0x0d, 0xc3, 0xa9] ∧
      (∃ file, load read ⟨"marked"⟩ = .ok file ∧
        file.content.toUTF8.data.toList = [0xef, 0xbb, 0xbf, 0x00, 0x0d, 0xc3, 0xa9]) ∧
      read ⟨"broken"⟩ = .ok [0xc3, 0xa9, 0xf0, 0x90, 0x80, 0x41] ∧
      load read ⟨"broken"⟩ = .error (.decode (.invalid 3 2)) ∧
      Utf8.Reports [0xc3, 0xa9, 0xf0, 0x90, 0x80, 0x41] (.invalid 3 2) := by
  let read : Path → Except ReadFailure (List UInt8) := fun path =>
    if path.text = "marked" then .ok [0xef, 0xbb, 0xbf, 0x00, 0x0d, 0xc3, 0xa9]
    else .ok [0xc3, 0xa9, 0xf0, 0x90, 0x80, 0x41]
  have hmarked : read ⟨"marked"⟩ = .ok [0xef, 0xbb, 0xbf, 0x00, 0x0d, 0xc3, 0xa9] := if_pos rfl
  have hbroken : read ⟨"broken"⟩ = .ok [0xc3, 0xa9, 0xf0, 0x90, 0x80, 0x41] :=
    if_neg (by decide)
  obtain ⟨hloads, hcontent, -, -⟩ := loads_encoded_texts hmarked
  obtain ⟨-, -, herrors, -⟩ := loads_encoded_texts hbroken
  obtain ⟨file, hfile⟩ := hloads.mpr ⟨['\ufeff', '\x00', '\r', 'é'], by decide⟩
  have herror : load read ⟨"broken"⟩ = .error (.decode (.invalid 3 2)) := rfl
  obtain ⟨report, heq, hreports⟩ := (herrors _).mp herror
  cases heq
  exact ⟨read, hmarked, ⟨file, hfile, (hcontent file hfile).2.2⟩, hbroken, herror, hreports⟩

end SourceFile

end Inference.Source
