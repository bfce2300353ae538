import FormatLint.CType.Spelling
import FormatLint.Format.FormatString

/-!
Casts in front of arguments. A cast counts only if what it is applied to is certain without parsing
expressions: it is followed by a single operand, with unary operators before it and member accesses,
subscripts and calls behind it. A cast in front of a sum, two casts in a row or a cast inside
parentheses are not taken for the type of the argument.
-/

namespace FormatLint

/-- The type that an argument is cast to, with its family if the type is known. -/
structure Cast where
  spelling : Text
  family : Option Family
  span : Span
  deriving DecidableEq

namespace Cast

def unaryOperators : List Text := ["-", "+", "!", "~", "&", "*"]

/-- The mark that closes what the given one opens. -/
def closer? (lexeme : Text) : Option Text :=
  if lexeme = Text.ofString "(" then some ")"
  else if lexeme = Text.ofString "[" then some "]"
  else none

/-- The tokens complete an operand: they close the open brackets, innermost first, and then consist
of subscripts, calls, member accesses and increments. Inside brackets only brackets count. -/
def isPostfix : List Text → List Token → Bool
  | [], [] => true
  | _ :: _, [] => false
  | awaited :: outer, t :: rest =>
    match closer? t.lexeme with
    | some closer => isPostfix (closer :: awaited :: outer) rest
    | none => if t.lexeme = awaited then isPostfix outer rest else isPostfix (awaited :: outer) rest
  | [], t :: rest =>
    if t.kind = .openParen then isPostfix [")"] rest
    else if t.isPunct ["["] then isPostfix ["]"] rest
    else if t.isPunct ["++", "--"] then isPostfix [] rest
    else if t.isPunct [".", "->"] then
      match rest with
      | [] => false
      | member :: later => member.kind = .ident && isPostfix [] later
    else false

/-- The tokens are one operand. -/
def isPrimary : List Token → Bool
  | [] => false
  | t :: rest =>
    match t.kind with
    | .string => rest.all (·.kind = .string)
    | .other | .char => rest.isEmpty
    | .ident => isPostfix [] rest
    | .openParen => isPostfix [")"] rest
    | _ => false

/-- The tokens are one operand behind any number of unary operators. -/
def isOperand (tokens : List Token) : Bool :=
  isPrimary (tokens.dropWhile (·.isPunct unaryOperators))

/-- The token can stand between the parentheses of a cast. -/
def isTypeWord (t : Token) : Bool := t.kind = .ident || t.isPunct ["*"]

/-- The type that the tokens, which follow an opening parenthesis, cast an operand to. -/
def ofTokens? (opening : Token) (tokens : List Token) : Option Cast :=
  let words := tokens.takeWhile isTypeWord
  match tokens.dropWhile isTypeWord with
  | [] => none
  | closing :: operand =>
    let spelling := Spelling.ofWords (words.map (·.lexeme))
    if (words.head?.any (·.kind = .ident)) && closing.kind = .closeParen && isOperand operand &&
        spelling.head?.any (· ≠ .char '*') then
      some ⟨spelling, Spelling.family? spelling, opening.span.through closing.span⟩
    else none

end Cast

/-- The cast that an argument begins with. -/
def Argument.cast? (a : Argument) : Option Cast :=
  match a.code with
  | [] => none
  | opening :: rest => if opening.kind = .openParen then Cast.ofTokens? opening rest else none

end FormatLint
