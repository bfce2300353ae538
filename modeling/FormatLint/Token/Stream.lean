import FormatLint.Source.Notice
import FormatLint.Token.Lexeme

/-!
The tokens of a source text: its lexemes, each with the span that it covers.
-/

namespace FormatLint

/-- A form that is never closed, from its first glyph to the place where reading stopped. -/
structure LexFault where
  span : Span
  form : Enclosure
  deriving DecidableEq

def LexFault.notice (fault : LexFault) : Notice :=
  ⟨fault.span, fault.form.message, some fault.form.hint⟩

namespace Token

/-- Lexemes that follow each other from the position `p` on, with their spans. -/
def place (file : Text) (p : Position) : List Lexeme → List Token
  | [] => []
  | l :: later =>
    let start := p.after l.blanks
    let stop := start.after l.text
    ⟨l.kind, l.text, ⟨file, start, stop⟩⟩ :: place file stop later

/-- The tokens of a file, the empty one at its end included. -/
def tokenize (file text : Text) : Except LexFault (List Token) :=
  match Lexeme.ofText text with
  | .ok lexemes => .ok (place file .first lexemes)
  | .error unclosed =>
    let start := Position.first.after unclosed.before
    .error ⟨⟨file, start, start.after unclosed.body⟩, unclosed.form⟩

theorem place_append (file : Text) (p : Position) (before after : List Lexeme) :
    place file p (before ++ after) =
      place file p before ++ place file (p.after (Lexeme.flatten before)) after := by
  induction before generalizing p with
  | nil => simp [Lexeme.flatten, place]
  | cons l later ih => simp [place, ih, Lexeme.flatten_cons]

theorem place_lexemes (file : Text) (p : Position) (lexemes : List Lexeme) :
    (place file p lexemes).map (fun t => (t.kind, t.lexeme)) =
      lexemes.map fun l => (l.kind, l.text) := by
  induction lexemes generalizing p with
  | nil => rfl
  | cons l later ih => simp [place, ih]

end Token

end FormatLint
