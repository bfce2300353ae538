import FormatLint.Source.Position

/-!
Tokens of C source text. Comments are tokens too, so that nothing but blanks lies between tokens.
-/

namespace FormatLint

inductive TokenKind where
  | ident
  | punct
  | openParen
  | closeParen
  | comma
  | string
  | char
  | comment
  | other
  | eof
  deriving DecidableEq, Inhabited

/-- A token with its exact source text. The last token of a file is an empty one of kind `eof`. -/
structure Token where
  kind : TokenKind
  lexeme : Text
  span : Span
  deriving DecidableEq

namespace Token

def isComment (t : Token) : Bool := t.kind = .comment

def isPunct (t : Token) (spellings : List Text) : Bool := t.kind = .punct && t.lexeme ∈ spellings

def code (tokens : List Token) : List Token := tokens.filter (!·.isComment)

/-- Without the comments before the first and behind the last other token. -/
def trimComments (tokens : List Token) : List Token :=
  ((tokens.dropWhile isComment).reverse.dropWhile isComment).reverse

theorem code_append (before after : List Token) :
    code (before ++ after) = code before ++ code after := List.filter_append _ _

end Token

end FormatLint
