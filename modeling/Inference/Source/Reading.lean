import Inference.Text.Split

/-!
# Reading source text

Source text is read as a whole, as a range of characters, or line by line. A
character is a Unicode scalar value. A line feed ends a line and belongs to none,
so the text after the last line feed is a line too, even if it is empty.
-/

namespace Inference.Source

/-- What source text can be read from. A range is read without the rest of the text, and it holds
the characters that the whole text has there. -/
class TextSource (σ : Type) where
  /-- At most `count` characters, from the character at `offset` on. A range that reaches past the
  end of the text is cut off there. -/
  readRange (source : σ) (count offset : Nat) : String
  /-- The whole text. -/
  readAll : σ → String
  readRange_eq (source : σ) (count offset : Nat) :
    readRange source count offset =
      String.ofList (((readAll source).toList.drop offset).take count)

export TextSource (readRange readAll)

/-- A text is read as it is. -/
instance : TextSource String where
  readRange text count offset := String.ofList ((text.toList.drop offset).take count)
  readAll text := text
  readRange_eq _ _ _ := rfl

@[simp]
theorem readAll_text (text : String) : readAll text = text := rfl

variable {σ : Type} [TextSource σ]

/-- At most the first `count` lines. -/
def readLines (source : σ) (count : Nat) : List String :=
  ((Text.split '\n' (readAll source).toList).take count).map String.ofList

end Inference.Source
