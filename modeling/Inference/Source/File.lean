import Inference.Source.Path
import Inference.Source.Reading
import Inference.Source.Utf8

/-!
# Source files

A source file is a text with the path it belongs to. It is either given inline or
loaded, which takes a reader that looks up the bytes at a path. Loading keeps
every byte: it succeeds only on UTF-8, and adds and drops nothing.
-/

namespace Inference.Source

/-- A text and its path. -/
structure SourceFile where
  content : String
  path : Path

/-- Why the bytes of a file cannot be read. -/
inductive ReadFailure where
  | notFound
  | isDirectory
  | notADirectory
  | invalidName
  deriving DecidableEq

namespace ReadFailure

/-- The kind of the failure. -/
def kind : ReadFailure → String
  | notFound => "NotFound"
  | isDirectory => "IsADirectory"
  | notADirectory => "NotADirectory"
  | invalidName => "InvalidInput"

/-- What the failure tells the user: the message of the system and its number, except for a name
that is refused before the system sees it. -/
def message : ReadFailure → String
  | notFound => "No such file or directory (os error 2)"
  | isDirectory => "Is a directory (os error 21)"
  | notADirectory => "Not a directory (os error 20)"
  | invalidName => "file name contained an unexpected NUL byte"

end ReadFailure

/-- Why a source file cannot be loaded. -/
inductive LoadError where
  | read (failure : ReadFailure)
  | decode (error : Utf8.DecodeError)
  deriving DecidableEq

/-- What an error tells the user. -/
def LoadError.message : LoadError → String
  | read failure => failure.message
  | decode error => error.message

namespace SourceFile

/-- A file is read as its text is. -/
instance : TextSource SourceFile where
  readRange file count offset := readRange file.content count offset
  readAll := content
  readRange_eq file := TextSource.readRange_eq file.content

@[simp]
theorem readAll_file (file : SourceFile) : readAll file = file.content := rfl

@[simp]
theorem readRange_file (file : SourceFile) (count offset : Nat) :
    readRange file count offset = readRange file.content count offset := rfl

/-- Files are equal if their texts and their paths are. -/
instance : BEq SourceFile :=
  ⟨fun left right => left.content == right.content && left.path == right.path⟩

/-- The description of a file names its path only. -/
def describe (file : SourceFile) : String :=
  "SourceFile \x7b full_path: " ++ file.path.describe ++ " \x7d"

/-- Load the file at a path, with a reader that looks up bytes. -/
def load (read : Path → Except ReadFailure (List UInt8)) (path : Path) :
    Except LoadError SourceFile :=
  match read path with
  | .error failure => .error (.read failure)
  | .ok bytes =>
      match Utf8.decode bytes with
      | .error error => .error (.decode error)
      | .ok content => .ok ⟨content, path⟩

end SourceFile

end Inference.Source
