import FormatLint.Printer
import FormatLint.Token.Basic

/-!
Calls of printers and their arguments.
-/

namespace FormatLint

/-- The tokens of one argument, comments inside it included. -/
structure Argument where
  tokens : List Token
  nonempty : tokens ≠ []
  deriving DecidableEq

namespace Argument

def ofTokens? (tokens : List Token) : Option Argument :=
  if nonempty : tokens ≠ [] then some ⟨tokens, nonempty⟩ else none

def span (a : Argument) : Span :=
  (a.tokens.head a.nonempty).span.through (a.tokens.getLast a.nonempty).span

def code (a : Argument) : List Token := Token.code a.tokens

/-- The token that is the whole argument, comments apart. -/
def single? (a : Argument) : Option Token :=
  match a.code with
  | [token] => some token
  | _ => none

/-- The argument is a literal, possibly written in several pieces. -/
def isStringLiteral (a : Argument) : Bool := a.code.all (·.kind = .string)

theorem ofTokens?_tokens (a : Argument) : ofTokens? a.tokens = some a := by
  simp [ofTokens?, a.nonempty]

end Argument

/-- A call of a printer, from its name to the parenthesis that closes its argument list. -/
structure Call where
  printer : Printer
  name : Token
  opening : Token
  closing : Token
  arguments : List Argument
  deriving DecidableEq

namespace Call

def span (c : Call) : Span := c.name.span.through c.closing.span

def fixedArguments (c : Call) : List Argument := c.arguments.take c.printer.formatIndex

def format? (c : Call) : Option Argument := c.arguments[c.printer.formatIndex]?

def trailingArguments (c : Call) : List Argument := c.arguments.drop (c.printer.formatIndex + 1)

/-- The call in short. -/
def describe (c : Call) : Text :=
  "CallSite(" ++ c.printer.name ++ ", args=" ++ Text.ofNat c.arguments.length ++ ", " ++
    c.span.location ++ ")"

theorem arguments_eq (c : Call) :
    c.arguments = c.fixedArguments ++ c.format?.toList ++ c.trailingArguments := by
  rw [fixedArguments, format?, trailingArguments, List.append_assoc]
  by_cases present : c.printer.formatIndex < c.arguments.length
  · rw [List.getElem?_eq_getElem present]
    simp
  · rw [List.getElem?_eq_none (Nat.le_of_not_lt present),
      List.take_of_length_le (Nat.le_of_not_lt present),
      List.drop_eq_nil_of_le (by omega)]
    simp

end Call

end FormatLint
