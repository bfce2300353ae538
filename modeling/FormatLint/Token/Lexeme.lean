import FormatLint.Token.Head

/-!
Cutting a text into lexemes. Each lexeme carries the blanks in front of it, and an empty lexeme at
the end carries the blanks behind the last one, so that no glyph of the text is lost:
`Lexeme.flatten_ofText` says that the pieces put together are the text.
-/

namespace FormatLint

/-- A lexeme and the blanks in front of it. -/
structure Lexeme where
  blanks : Text
  kind : TokenKind
  text : Text
  deriving DecidableEq

/-- A form that is never closed, and the text in front of it. -/
structure Unclosed where
  before : Text
  form : Enclosure
  body : Text
  deriving DecidableEq

namespace Lexeme

/-- The glyphs that separate tokens. -/
def isGap (g : Glyph) : Bool :=
  g.satisfies fun c => c ∈ [' ', '\t', '\r', '\n', '\x0B', '\x0C']

/-- The lexemes of a text, or the first form in it that is never closed. -/
def ofText (text : Text) : Except Unclosed (List Lexeme) :=
  let blanks := text.takeWhile isGap
  match _found : Head.read (text.dropWhile isGap) with
  | .finished => .ok [⟨blanks, .eof, []⟩]
  | .unclosed form body => .error ⟨blanks, form, body⟩
  | .lexeme kind word rest =>
    match ofText rest with
    | .ok later => .ok (⟨blanks, kind, word⟩ :: later)
    | .error fault => .error { fault with before := blanks ++ word ++ fault.before }
termination_by text.length
decreasing_by
  exact Nat.lt_of_lt_of_le (Head.read_rest_length _found) (List.dropWhile_sublist _).length_le

/-- The text that the lexemes were cut from. -/
def flatten (lexemes : List Lexeme) : Text := lexemes.flatMap fun l => l.blanks ++ l.text

theorem flatten_cons (l : Lexeme) (later : List Lexeme) :
    flatten (l :: later) = l.blanks ++ l.text ++ flatten later := by
  simp [flatten]

/-- No glyph is lost. -/
theorem flatten_ofText {text : Text} {lexemes : List Lexeme} (read : ofText text = .ok lexemes) :
    flatten lexemes = text := by
  fun_induction ofText text generalizing lexemes with
  | case1 text blanks =>
    rename_i finished
    cases read
    rw [← List.takeWhile_append_dropWhile (p := isGap) (l := text),
      Head.read_eq_finished.1 finished]
    simp [flatten, blanks]
  | case2 => cases read
  | case3 text blanks kind word rest found later readLater =>
    rename_i ih
    cases read
    rw [flatten_cons, ih readLater, List.append_assoc, ← (Head.read_lexeme found).1]
    exact List.takeWhile_append_dropWhile
  | case4 => cases read

end Lexeme

end FormatLint
