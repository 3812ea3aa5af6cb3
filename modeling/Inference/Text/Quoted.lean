import Inference.Text.GraphemeExtend
import Inference.Text.Unprintable

/-!
# Quoted text

Quoted text stands between double quotes and shows every character. A character
that would end the quotation, that prints nothing, or that joins the one before
it is escaped: the common ones by a backslash and a letter, the others by their
code in hexadecimal digits.
-/

namespace Inference.Text

/-- The hexadecimal escape of a character. -/
def hexEscape (char : Char) : List Char :=
  "\\u\x7b".toList ++ Nat.toDigits 16 char.toNat ++ "\x7d".toList

/-- The characters that are shown for a character between quotes. An apostrophe stands for
itself, because it does not end the quotation. -/
def escape (char : Char) : List Char :=
  match char with
  | '\x00' => ['\\', '0']
  | '\t' => ['\\', 't']
  | '\r' => ['\\', 'r']
  | '\n' => ['\\', 'n']
  | '\\' => ['\\', '\\']
  | '"' => ['\\', '"']
  | _ =>
      if combines char || isUnprintable char then hexEscape char
      else [char]

/-- The text between double quotes. -/
def quote (text : String) : String :=
  String.ofList ('"' :: (text.toList.flatMap escape ++ ['"']))

end Inference.Text
