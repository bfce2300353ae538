import FormatLint.CType.Family
import FormatLint.Diagnostic.Basic
import FormatLint.Token.Stream

/-!
The wording of every diagnostic.
-/

namespace FormatLint.Diagnostic

/-- A literal or comment is never closed. -/
def unclosed (fault : LexFault) : Diagnostic where
  problem := .unclosed
  message := fault.form.message
  labels := [⟨fault.span, "starts here", true⟩]
  help := some fault.form.hint

/-- The statement ends before the argument list of a call does. -/
def unbalancedParentheses (callee : Text) (name opening : Span) : Diagnostic where
  problem := .unbalancedParentheses
  message := "unbalanced parentheses in call to `" ++ callee ++ "`"
  labels :=
    [⟨opening, "this parenthesis is never closed", true⟩, ⟨name, "in this call", false⟩]
  help := some "Close the argument list with `)` before the end of the statement."

/-- Nothing stands between two separators of an argument list. -/
def emptyArgument (callee : Text) (gap : Span) : Diagnostic where
  problem := .emptyArgument
  message := "empty argument in call to `" ++ callee ++ "`"
  labels := [⟨gap, "expected an argument here", true⟩]
  help := some "Remove the extra comma or supply the missing argument."

/-- A call has too few arguments to have a format. -/
def missingArguments (callee : Text) (list : Span) (expected given : Nat) : Diagnostic where
  problem := .missingArguments
  message := "missing function arguments, `" ++ callee ++ "` takes at least " ++ Text.ofNat expected
  labels := [⟨list, "not enough arguments in function call", true⟩]
  help := some
    ("Supply enough arguments for the function call (" ++ Text.ofNat given ++ " given).")

/-- The format is no literal. The help repeats the call up to the format; if the format is a single
identifier, it shows how to print what that stands for. -/
def nonLiteralFormat (callStart : Text) (format : Span) (identifier : Option Text) :
    Diagnostic where
  problem := .nonLiteralFormat
  message :=
    "format string isn't a string literal, this is potentially an overflow vulnerability!"
  labels := [⟨format, "not a string literal", true⟩]
  help := some <|
    match identifier with
    | some name =>
      "To safely print a string, use `" ++ callStart ++ "\"%s\", " ++ name ++ ")` instead."
    | none =>
      "Use a string literal as the format argument, like `" ++ callStart ++ "\"hello\")`."

/-- A directive has no known conversion. -/
def invalidDirective (span : Span) (directive : Text) : Diagnostic where
  problem := .invalidDirective
  message := "invalid conversion specifier `" ++ directive ++ "`"
  labels := [⟨span, "unknown conversion", true⟩]
  help := some
    "Use a valid conversion such as `%d` or `%s`, or `%%` for a literal percent sign."

/-- The format demands more arguments than there are. -/
def excessDirectives (directives arguments : Span) (count : Nat) : Diagnostic where
  problem := .excessDirectives
  message := "excess specifiers, this will read arbitrary data off the stack!"
  labels :=
    [⟨directives, Text.ofNat count ++ " too many specifiers", true⟩,
     ⟨arguments, "not enough arguments", false⟩]
  help := some <|
    if count = 1 then "Add an argument or remove a specifier."
    else
      "Add " ++ Text.ofNat count ++ " arguments or remove " ++ Text.ofNat count ++ " specifiers."

/-- There are more arguments than the format demands. -/
def excessArguments (format arguments : Span) (count : Nat) : Diagnostic where
  problem := .excessArguments
  message := "excess arguments"
  labels :=
    [⟨format, "not enough specifiers", false⟩,
     ⟨arguments, Text.ofNat count ++ " too many arguments", true⟩]
  help := some <|
    if count = 1 then "Add a specifier or remove an argument."
    else
      "Add " ++ Text.ofNat count ++ " specifiers or remove " ++ Text.ofNat count ++ " arguments."

/-- An argument is cast to a type of another family than its directive reads. -/
def typeMismatch (directive : Text) (directiveSpan : Span) (expected : Family)
    (expectedType : Text) (castSpan : Span) (castFamily : Family) (castType : Text) :
    Diagnostic where
  problem := .typeMismatch
  message :=
    "incorrect specifier for type casted argument: `" ++ directive ++ "` expects " ++
      expected.name ++ ", argument is cast to " ++ castFamily.name
  labels :=
    [⟨directiveSpan, "format string expects `" ++ expectedType ++ "` value", true⟩,
     ⟨castSpan, "argument is casted as `" ++ castType ++ "`", false⟩]
  help := some
    ("Change the specifier to `%" ++ castFamily.letter ++ "`, or change the cast to `(" ++
      expectedType ++ ")`.")

end FormatLint.Diagnostic
