import FormatLint.Call.Slot
import FormatLint.Diagnostic.Catalogue

/-!
The places where a source text mentions printers: as values, in declarations, and in calls. Calls
are looked for inside the arguments of other calls as well, and behind calls that are malformed.
-/

namespace FormatLint

/-- An identifier of the printer table in a source text, by the part that it plays. -/
inductive Mention where
  /-- No argument list follows. -/
  | value (name : Token)
  /-- What comes before makes it a declaration or the member of a structure. -/
  | declared (name : Token)
  | call (call : Call)
  /-- A call whose argument list cannot be read. -/
  | malformed (diagnostic : Diagnostic)

namespace Mention

/-- The identifiers that may stand directly before an expression. -/
def expressionKeywords : List Text := ["return", "else", "do", "case", "sizeof"]

/-- The token in front makes an identifier a declared name or a member. -/
def declares (previous : Token) : Bool :=
  previous.isPunct [".", "->"] ||
    (previous.kind = .ident && previous.lexeme ∉ expressionKeywords)

/-- The call whose argument list begins behind the token `opening`. -/
def readCall (printer : Printer) (name opening : Token) (rest : List Token) : Mention :=
  match Slot.cut 0 rest with
  | none => .malformed (.unbalancedParentheses printer.name name.span opening.span)
  | some slots =>
    let closing := (slots.getLast?.map (·.stop)).getD opening
    if Slot.areBare slots then
      .call ⟨printer, name, opening, closing, []⟩
    else
      match Slot.firstEmpty? opening slots with
      | some (before, after) =>
        .malformed (.emptyArgument printer.name (before.span.through after.span))
      | none =>
        .call ⟨printer, name, opening, closing,
          slots.filterMap fun s => Argument.ofTokens? s.trimmed⟩

/-- The part that an identifier of the table plays between the tokens around it. -/
def classify (printer : Printer) (previous : Option Token) (name : Token) (rest : List Token) :
    Mention :=
  match rest.dropWhile Token.isComment with
  | [] => .value name
  | next :: later =>
    if next.kind ≠ .openParen then .value name
    else if previous.any declares then .declared name
    else readCall printer name next later

/-- All mentions in a list of tokens, `previous` being the last token before it that is no
comment. -/
def scan (table : PrinterTable) (previous : Option Token) : List Token → List Mention
  | [] => []
  | t :: rest =>
    let later := scan table (if t.isComment then previous else some t) rest
    if t.kind = .ident then
      match table.find? t.lexeme with
      | some printer => classify printer previous t rest :: later
      | none => later
    else later

/-- All mentions of a file. -/
def ofTokens (table : PrinterTable) (tokens : List Token) : List Mention := scan table none tokens

def call? : Mention → Option Call
  | .call found => some found
  | _ => none

def diagnostic? : Mention → Option Diagnostic
  | .malformed found => some found
  | _ => none

/-- The calls, in the order of their names. -/
def calls (mentions : List Mention) : List Call := mentions.filterMap call?

def diagnostics (mentions : List Mention) : List Diagnostic := mentions.filterMap diagnostic?

end Mention

end FormatLint
