import FormatLint.Format.Directive

/-!
The pieces of a format: literal text, escaped percent signs and directives. A backslash takes the
glyph behind it along, so neither of them begins a directive. `Piece.flatten_ofText` says that no
glyph is lost or moved.
-/

namespace FormatLint

inductive Piece where
  | text (glyphs : Text)
  /-- Two percent signs, which print one. -/
  | percent
  | directive (directive : Directive)
  deriving DecidableEq

namespace Piece

def source : Piece → Text
  | .text glyphs => glyphs
  | .percent => "%%"
  | .directive d => d.text

/-- The glyphs are put in front of the pieces, as part of the text with which they begin. -/
def consText (glyphs : Text) : List Piece → List Piece
  | .text first :: later => .text (glyphs ++ first) :: later
  | pieces => .text glyphs :: pieces

/-- The pieces of a text. -/
def ofText : Text → List Piece
  | [] => []
  | [g] => if g = .char '%' then [.directive (Directive.read []).1] else [.text [g]]
  | g :: next :: rest =>
    if g = .char '\\' then consText [g, next] (ofText rest)
    else if g ≠ .char '%' then consText [g] (ofText (next :: rest))
    else if next = .char '%' then .percent :: ofText rest
    else
      let reading := Directive.read (next :: rest)
      .directive reading.1 :: ofText reading.2
termination_by t => t.length
decreasing_by
  · simp only [List.length_cons]; omega
  · simp only [List.length_cons]; omega
  · simp only [List.length_cons]; omega
  · have shorter := Directive.read_rest_length (next :: rest)
    simp only [List.length_cons] at shorter ⊢
    omega

/-- The text that the pieces were cut from. -/
def flatten (pieces : List Piece) : Text := pieces.flatMap source

theorem flatten_cons (p : Piece) (later : List Piece) :
    flatten (p :: later) = p.source ++ flatten later := rfl

theorem flatten_consText (glyphs : Text) (pieces : List Piece) :
    flatten (consText glyphs pieces) = glyphs ++ flatten pieces := by
  unfold consText
  split <;> simp [flatten_cons, source]

/-- The pieces tile the text. -/
theorem flatten_ofText (t : Text) : flatten (ofText t) = t := by
  fun_induction ofText t with
  | case1 => rfl
  | case2 => rfl
  | case3 => rfl
  | case4 _ _ ih => simp [flatten_consText, ih]
  | case5 _ _ _ _ _ ih => simp [flatten_consText, ih]
  | case6 g rest _ percent ih =>
    have same : g = .char '%' := Classical.not_not.1 percent
    simp [flatten_cons, ih, source, Text.ofString, same]
  | case7 g next rest _ percent _ reading ih =>
    have same : g = .char '%' := Classical.not_not.1 percent
    rw [flatten_cons, ih, same]
    exact Directive.read_text (next :: rest)

end Piece

end FormatLint
