import FormatLint.Call.Basic

/-!
The content of a format argument: the insides of its literals put together, each glyph with its
position in the source text, and the places where one literal ends and the next begins.
-/

namespace FormatLint

/-- A glyph and where it stands. -/
structure Located where
  glyph : Glyph
  position : Position
  deriving DecidableEq

namespace Located

/-- A text that begins at the position `p`. -/
def ofText (p : Position) : Text → List Located
  | [] => []
  | g :: rest => ⟨g, p⟩ :: ofText (p.step g) rest

def text (glyphs : List Located) : Text := glyphs.map (·.glyph)

/-- From the first glyph to the place behind the last. No glyphs have no place of their own within
`whole`. -/
def span (whole : Span) (glyphs : List Located) : Span :=
  match glyphs.head?, glyphs.getLast? with
  | some first, some last => ⟨whole.file, first.position, last.position.step last.glyph⟩
  | _, _ => whole

@[simp] theorem text_ofText (p : Position) (t : Text) : text (ofText p t) = t := by
  induction t generalizing p with
  | nil => rfl
  | cons g rest ih => simpa [ofText, text] using ih (p.step g)

theorem ofText_append (p : Position) (before after : Text) :
    ofText p (before ++ after) = ofText p before ++ ofText (p.after before) after := by
  induction before generalizing p with
  | nil => rfl
  | cons g rest ih => simp [ofText, ih]

end Located

/-- What stands between the quotes of a literal. -/
def Token.literalBody (t : Token) : List Located :=
  ((Located.ofText t.span.start t.lexeme).dropWhile (·.glyph ≠ .char '"')).tail.dropLast

namespace Argument

/-- The insides of the literals that make up the argument. -/
def literalBodies (a : Argument) : List (List Located) := a.code.map Token.literalBody

/-- Where bodies begin that are put together behind `total` glyphs. -/
def bodyStarts (total : Nat) : List (List Located) → List Nat
  | [] => []
  | body :: later => total :: bodyStarts (total + body.length) later

/-- The places in the content at which a literal after the first begins. -/
def literalBreaks (a : Argument) : List Nat := (bodyStarts 0 a.literalBodies).tail

end Argument

end FormatLint
