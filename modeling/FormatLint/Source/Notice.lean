import FormatLint.Source.Position

/-!
A message about one place of a source text, with a hint that may follow it.
-/

namespace FormatLint

structure Notice where
  span : Span
  message : Text
  hint : Option Text
  deriving DecidableEq

/-- The place and the message on one line; a hint that says something on the next. -/
def Notice.render (n : Notice) : Text :=
  let line := n.span.location ++ ": " ++ n.message
  match n.hint with
  | none | some [] => line
  | some hint => line ++ "\nhint: " ++ hint

end FormatLint
