import FormatLint.Text.CodeRange

/-!
The blanks of Unicode, and the two operations that depend on them: cutting a text into its words and
dropping the blanks at its end. The blanks between the tokens of a source text are fewer; see
`Lexeme.isGap`.
-/

namespace FormatLint

/-- The blank characters of Unicode: controls that move the position, separators and spaces. -/
def blankRanges : List CodeRange :=
  [⟨0x9, 0xD⟩, ⟨0x1C, 0x20⟩, ⟨0x85, 0x85⟩, ⟨0xA0, 0xA0⟩, ⟨0x1680, 0x1680⟩, ⟨0x2000, 0x200A⟩,
   ⟨0x2028, 0x2029⟩, ⟨0x202F, 0x202F⟩, ⟨0x205F, 0x205F⟩, ⟨0x3000, 0x3000⟩]

def isBlank (c : Char) : Bool := CodeRange.anyContains blankRanges c

def Glyph.isBlank (g : Glyph) : Bool := g.satisfies FormatLint.isBlank

namespace Text

/-- The maximal runs of glyphs that are not blank. -/
def words (t : Text) : List Text := (t.splitOnP Glyph.isBlank).filter (· ≠ [])

def trimRight (t : Text) : Text := (t.reverse.dropWhile Glyph.isBlank).reverse

/-- The words of the text, one space apart. -/
def squeeze (t : Text) : Text := joinWith [.char ' '] t.words

theorem trimRight_append_blanks (t : Text) :
    ∃ blanks, t = trimRight t ++ blanks ∧ ∀ g ∈ blanks, g.isBlank = true := by
  refine ⟨(t.reverse.takeWhile Glyph.isBlank).reverse, ?_, ?_⟩
  · rw [trimRight, ← List.reverse_append, List.takeWhile_append_dropWhile, List.reverse_reverse]
  · intro g member
    exact List.all_eq_true.1 List.all_takeWhile g (List.mem_reverse.1 member)

end Text

end FormatLint
