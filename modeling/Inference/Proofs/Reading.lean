import Inference.Source.File
import Mathlib.Algebra.Ring.Nat

/-!
# Lines and ranges

Splitting a text at line feeds and joining the pieces with line feeds gives the text
again, so each line starts behind the lines before it and their line feeds
(`take_drop_intercalate`). Reading this range of the text gives the line, and adjacent
ranges make one range (`lines_and_ranges_agree`).
-/

namespace Inference

namespace Text

variable {separator char : Char} {chars piece : List Char}

/-! ## Pieces between separators -/

theorem split_cons_separator (separator : Char) (chars : List Char) :
    split separator (separator :: chars) = [] :: split separator chars :=
  if_pos rfl

/-- Another character belongs to the first piece. -/
theorem split_cons_of_ne (hne : char ≠ separator) :
    split separator (char :: chars) = (split separator chars).modifyHead (char :: ·) := by
  have hsplit : split separator chars ≠ [] := by
    unfold split
    split
    · simp
    · split
      · simp
      · split <;> simp
  obtain ⟨first, rest, hfirst⟩ := List.exists_cons_of_ne_nil hsplit
  rw [split, if_neg hne, hfirst, List.modifyHead_cons]

theorem split_eq_splitOn (separator : Char) (chars : List Char) :
    split separator chars = chars.splitOn separator := by
  induction chars with
  | nil => rfl
  | cons char chars ih =>
      rw [List.splitOn_cons_eq_if_modifyHead]
      by_cases heq : char = separator
      · subst heq
        rw [split_cons_separator, ih, if_pos (beq_self_eq_true char)]
      · rw [split_cons_of_ne heq, ih, if_neg (by simp [heq])]

/-- The text between adjacent pieces is the separator. -/
theorem intercalate_split (separator : Char) (chars : List Char) :
    [separator].intercalate (split separator chars) = chars := by
  rw [split_eq_splitOn, List.intercalate_splitOn]

/-- There is one piece more than there are separators. -/
theorem length_split (separator : Char) (chars : List Char) :
    (split separator chars).length = chars.count separator + 1 := by
  induction chars with
  | nil => rfl
  | cons char chars ih =>
      by_cases heq : char = separator
      · subst heq
        rw [split_cons_separator, List.length_cons, ih, List.count_cons_self]
      · rw [split_cons_of_ne heq, List.length_modifyHead, ih, List.count_cons_of_ne heq]

/-- No piece holds a separator. -/
theorem not_mem_of_mem_split (hpiece : piece ∈ split separator chars) : separator ∉ piece := by
  induction chars generalizing piece with
  | nil =>
      obtain rfl := List.mem_singleton.mp hpiece
      exact List.not_mem_nil
  | cons char chars ih =>
      by_cases heq : char = separator
      · subst heq
        rw [split_cons_separator] at hpiece
        obtain rfl | hrest := List.mem_cons.mp hpiece
        · exact List.not_mem_nil
        · exact ih hrest
      · rw [split_cons_of_ne heq] at hpiece
        cases hsplit : split separator chars with
        | nil =>
            rw [hsplit] at hpiece
            cases hpiece
        | cons first rest =>
            rw [hsplit, List.modifyHead_cons] at hpiece
            rw [hsplit] at ih
            obtain rfl | hrest := List.mem_cons.mp hpiece
            · have hfirst := ih List.mem_cons_self
              intro hin
              obtain hchar | hin := List.mem_cons.mp hin
              · exact heq hchar.symm
              · exact hfirst hin
            · exact ih (List.mem_cons_of_mem first hrest)

/-! ## Where pieces start -/

/-- A piece starts behind the pieces before it and a separator after each of them. -/
theorem take_drop_intercalate {pieces : List (List Char)} {index : Nat}
    (hpiece : pieces[index]? = some piece) :
    (([separator].intercalate pieces).drop
      ((pieces.take index).map fun before => before.length + 1).sum).take piece.length = piece := by
  induction pieces generalizing index with
  | nil => cases hpiece
  | cons first rest ih =>
      cases index with
      | zero =>
          obtain rfl := Option.some.inj hpiece
          cases rest with
          | nil => simp
          | cons second rest =>
              rw [List.intercalate_cons_cons, List.append_assoc]
              exact List.take_left
      | succ index =>
          rw [List.getElem?_cons_succ] at hpiece
          have hrest : rest ≠ [] := by
            rintro rfl
            cases hpiece
          have hlength : (first ++ [separator]).length = first.length + 1 := List.length_append
          rw [List.intercalate_cons_of_ne_nil hrest, List.take_succ_cons, List.map_cons,
            List.sum_cons, ← List.drop_drop, ← hlength, List.drop_left]
          exact ih hpiece

end Text

namespace Source

variable {σ : Type} [TextSource σ] {source : σ} {bound index : Nat} {line : String}

/-! ## Lines -/

/-- The number of line feeds of a text. -/
def lineFeeds (source : σ) : Nat := (readAll source).toList.count '\n'

/-- From the number of lines on, a bound leaves no line out. -/
theorem readLines_eq_all (hbound : lineFeeds source < bound) :
    readLines source bound = (Text.split '\n' (readAll source).toList).map String.ofList := by
  rw [readLines, List.take_of_length_le]
  rw [Text.length_split]
  exact hbound

/-- There is one line more than there are line feeds. -/
theorem length_readLines (hbound : lineFeeds source < bound) :
    (readLines source bound).length = lineFeeds source + 1 := by
  rw [readLines_eq_all hbound, List.length_map, Text.length_split, lineFeeds]

/-- Reading fewer lines gives the first ones of all lines. -/
theorem readLines_eq_take (hbound : lineFeeds source < bound) (count : Nat) :
    readLines source count = (readLines source bound).take (min count (lineFeeds source + 1)) := by
  rw [← length_readLines hbound, ← List.take_eq_take_min, readLines_eq_all hbound, readLines,
    List.map_take]

/-- All lines, with line feeds between them, are the text. -/
theorem intercalate_readLines (hbound : lineFeeds source < bound) :
    "\n".intercalate (readLines source bound) = readAll source := by
  have hpieces : ((Text.split '\n' (readAll source).toList).map String.ofList).map String.toList =
      Text.split '\n' (readAll source).toList := by
    rw [List.map_map]
    refine (List.map_congr_left fun piece _ => ?_).trans (List.map_id _)
    exact String.toList_ofList
  rw [← String.toList_inj, String.toList_intercalate, readLines_eq_all hbound, hpieces]
  exact Text.intercalate_split '\n' _

theorem not_mem_of_mem_readLines (hline : line ∈ readLines source bound) :
    '\n' ∉ line.toList := by
  obtain ⟨piece, hpiece, rfl⟩ := List.mem_map.mp hline
  rw [String.toList_ofList]
  exact Text.not_mem_of_mem_split (List.mem_of_mem_take hpiece)

/-! ## Ranges -/

/-- The characters of a range are those of the text from its offset on. -/
theorem getElem?_readRange (source : σ) (count offset index : Nat) :
    (readRange source count offset).toList[index]? =
      if index < count then (readAll source).toList[offset + index]? else none := by
  rw [TextSource.readRange_eq, String.toList_ofList, List.getElem?_take, List.getElem?_drop]

/-- A range is shorter than demanded only if it reaches past the end of the text. -/
theorem length_readRange (source : σ) (count offset : Nat) :
    (readRange source count offset).length = min count ((readAll source).length - offset) := by
  rw [TextSource.readRange_eq, String.length_ofList, List.length_take, List.length_drop,
    String.length_toList]

theorem readRange_append (source : σ) (first second offset : Nat) :
    readRange source first offset ++ readRange source second (offset + first) =
      readRange source (first + second) offset := by
  simp only [TextSource.readRange_eq]
  rw [← String.ofList_append, List.take_add, List.drop_drop]

/-- A line is a range of the text. -/
theorem readRange_line (hbound : lineFeeds source < bound)
    (hline : (readLines source bound)[index]? = some line) :
    readRange source line.length
      (((readLines source bound).take index).map fun before => before.length + 1).sum = line := by
  rw [readLines_eq_all hbound] at hline ⊢
  rw [List.getElem?_map, Option.map_eq_some_iff] at hline
  obtain ⟨piece, hpiece, rfl⟩ := hline
  have hrange := @Text.take_drop_intercalate '\n' _ _ _ hpiece
  rw [Text.intercalate_split] at hrange
  rw [TextSource.readRange_eq, String.length_ofList, ← List.map_take, List.map_map, ← hrange]
  simp only [Function.comp_def, String.length_ofList, hrange]

/-- Let the lines of a text be read with a bound above the number of its line feeds. There is one
line more than there are line feeds, no line holds one, and all lines with line feeds between them
are the text. Another bound gives the first of these lines. Each line is the range of the text that
starts behind the lines before it and their line feeds. Adjacent ranges make one range, and a range
holds the characters that the text has there, up to its end. -/
theorem lines_and_ranges_agree (source : σ) (hbound : lineFeeds source < bound) :
    (∀ line ∈ readLines source bound, '\n' ∉ line.toList) ∧
    (readLines source bound).length = lineFeeds source + 1 ∧
    "\n".intercalate (readLines source bound) = readAll source ∧
    (∀ count, readLines source count =
      (readLines source bound).take (min count (lineFeeds source + 1))) ∧
    (∀ index line, (readLines source bound)[index]? = some line →
      readRange source line.length
        (((readLines source bound).take index).map fun before => before.length + 1).sum = line) ∧
    (∀ offset first second,
      readRange source first offset ++ readRange source second (offset + first) =
        readRange source (first + second) offset) ∧
    ∀ count offset,
      (readRange source count offset).length = min count ((readAll source).length - offset) ∧
      ∀ index, (readRange source count offset).toList[index]? =
        if index < count then (readAll source).toList[offset + index]? else none := by
  refine ⟨fun _ => not_mem_of_mem_readLines, length_readLines hbound,
    intercalate_readLines hbound, readLines_eq_take hbound, fun _ _ => readRange_line hbound,
    ?_, ?_⟩
  · exact fun offset first second => readRange_append source first second offset
  · exact fun count offset =>
      ⟨length_readRange source count offset, getElem?_readRange source count offset⟩

/-- A file whose characters take several bytes, with an empty line and a line feed at its end. -/
theorem lines_and_ranges_agree_accented :
    ∃ file : SourceFile, file = ⟨"é\n\nzß\n", ⟨"a"⟩⟩ ∧ lineFeeds file < 5 ∧
      readLines file 5 = ["é", "", "zß", ""] ∧ (readLines file 5).length = 4 ∧
      "\n".intercalate (readLines file 5) = readAll file ∧ readRange file 2 3 = "zß" := by
  have hbound : lineFeeds (⟨"é\n\nzß\n", ⟨"a"⟩⟩ : SourceFile) < 5 := by decide
  obtain ⟨-, hlength, hjoined, -, hranges, -⟩ := lines_and_ranges_agree _ hbound
  exact ⟨_, rfl, hbound, by decide, hlength, hjoined, hranges 2 "zß" (by decide)⟩

end Source

end Inference
