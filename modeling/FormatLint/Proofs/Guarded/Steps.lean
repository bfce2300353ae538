import FormatLint.Report

/-!
The analysis, its revisions and its report with every step that can fail spelled out: looking up an
element of a list or a line of the source, making a span or an edit that might end before it starts,
making an argument of no tokens, and reading a token as a literal. Nothing is assumed about the data
that the steps are given.
-/

namespace FormatLint

/-- Why a step fails. -/
inductive Mishap where
  | span (fault : SpanFault)
  | edit (fault : ReversedEdit)
  | overlap (fault : Overlap)
  /-- There is no element or line with the number. -/
  | index
  | emptyArgument
  | notALiteral
  deriving DecidableEq

namespace Guarded

def get {α : Type} (l : List α) (i : Nat) : Except Mishap α :=
  match l[i]? with
  | some a => .ok a
  | none => .error .index

def last {α : Type} (l : List α) : Except Mishap α :=
  match l.getLast? with
  | some a => .ok a
  | none => .error .index

def between (file : Text) (start stop : Position) : Except Mishap Span :=
  (Span.between file start stop).mapError .span

def join (first last : Span) : Except Mishap Span :=
  (Span.join [some first, some last]).mapError .span

def through (spans : List Span) : Except Mishap Span := do
  let first ← get spans 0
  let final ← last spans
  join first final

def place (file : Text) (p : Position) : List Lexeme → Except Mishap (List Token)
  | [] => return []
  | l :: later => do
    let start := p.after l.blanks
    let stop := start.after l.text
    let span ← between file start stop
    let tokens ← place file stop later
    return ⟨l.kind, l.text, span⟩ :: tokens

def tokenize (file text : Text) : Except Mishap (Except LexFault (List Token)) :=
  match Lexeme.ofText text with
  | .ok lexemes => do
    let tokens ← place file .first lexemes
    return .ok tokens
  | .error unclosed => do
    let start := Position.first.after unclosed.before
    let span ← between file start (start.after unclosed.body)
    return .error ⟨span, unclosed.form⟩

def argument (tokens : List Token) : Except Mishap Argument :=
  match Argument.ofTokens? tokens with
  | some a => .ok a
  | none => .error .emptyArgument

def argumentSpan (a : Argument) : Except Mishap Span :=
  join (a.tokens.head a.nonempty).span (a.tokens.getLast a.nonempty).span

/-- From the separator in front of the first slot without code to the one behind it. -/
def emptySlot? (opening : Token) (slots : List Slot) : Except Mishap (Option Span) :=
  match slots.findIdx? (·.trimmed = []) with
  | none => return none
  | some i => do
    let separators := opening :: slots.map (·.stop)
    let before ← get separators i
    let after ← get separators (i + 1)
    let gap ← join before.span after.span
    return some gap

def readCall (printer : Printer) (name opening : Token) (rest : List Token) :
    Except Mishap Mention :=
  match Slot.cut 0 rest with
  | none => return .malformed (.unbalancedParentheses printer.name name.span opening.span)
  | some slots => do
    let closing ← last (opening :: slots.map (·.stop))
    if Slot.areBare slots then return .call ⟨printer, name, opening, closing, []⟩
    else
      match ← emptySlot? opening slots with
      | some gap => return .malformed (.emptyArgument printer.name gap)
      | none => do
        let arguments ← slots.mapM fun s => argument s.trimmed
        return .call ⟨printer, name, opening, closing, arguments⟩

def classify (printer : Printer) (previous : Option Token) (name : Token) (rest : List Token) :
    Except Mishap Mention := do
  let behind := rest.dropWhile Token.isComment
  let next ← get behind 0
  if next.kind ≠ .openParen then return .value name
  else if previous.any Mention.declares then return .declared name
  else readCall printer name next behind.tail

def scan (table : PrinterTable) (previous : Option Token) :
    List Token → Except Mishap (List Mention)
  | [] => return []
  | t :: rest => do
    let later ← scan table (if t.isComment then previous else some t) rest
    if t.kind = .ident then
      match table.find? t.lexeme with
      | some printer => return (← classify printer previous t rest) :: later
      | none => return later
    else return later

/-- The inside of a literal, each glyph where the table of lines puts its offset. -/
def literalBody (s : Source) (t : Token) : Except Mishap (List Located) :=
  if t.kind = .string then
    match t.lexeme.findIdx? (· = .char '"') with
    | none => .error .notALiteral
    | some i =>
      let body := (t.lexeme.drop (i + 1)).dropLast
      (body.zipIdx (t.span.start.offset + (i + 1))).mapM fun (g, offset) => do
        let p ← (s.locate offset).mapError .span
        return ⟨g, p⟩
  else .error .notALiteral

/-- The span of a part of the content. -/
def partSpan (s : Source) (content : List Located) (start stop : Nat) : Except Mishap Span := do
  let first ← get content start
  let final ← get content (stop - 1)
  (s.span first.position.offset (final.position.offset + 1)).mapError .span

def placePieces (s : Source) (content : List Located) (start : Nat) :
    List Piece → Except Mishap (List PlacedPiece)
  | [] => return []
  | piece :: later => do
    let stop := start + piece.source.length
    let span ← partSpan s content start stop
    let parts ← placePieces s content stop later
    return ⟨piece, start, span⟩ :: parts

def format (s : Source) (a : Argument) : Except Mishap FormatString := do
  let bodies ← a.code.mapM (literalBody s)
  let content := bodies.flatten
  let span ← argumentSpan a
  let parts ← placePieces s content 0 (Piece.ofText (Located.text content))
  return { content, breaks := (Argument.bodyStarts 0 bodies).tail, span, parts }

def cast? (a : Argument) : Except Mishap (Option Cast) :=
  match a.code, a.cast? with
  | opening :: rest, some cast => do
    let closing ← get rest (rest.takeWhile Cast.isTypeWord).length
    let span ← join opening.span closing.span
    return some { cast with span }
  | _, _ => return none

/-- From the first to the last of the arguments, or the end of the call if there are none. -/
def argumentsSpan (c : Call) (arguments : List Argument) : Except Mishap Span :=
  if arguments = [] then return c.closing.span
  else do
    let spans ← arguments.mapM argumentSpan
    through spans

def countDiagnostics (c : Call) (format : FormatString) (demands : List Demand)
    (arguments : List Argument) : Except Mishap (List Diagnostic) :=
  if arguments.length < demands.length then do
    let unmet := demands.drop arguments.length
    let directives ← through (unmet.map (·.span))
    let given ← argumentsSpan c arguments
    return [.excessDirectives directives given unmet.length]
  else if demands.length < arguments.length then do
    let extra := arguments.drop demands.length
    let span ← argumentsSpan c extra
    return [.excessArguments format.span span extra.length]
  else return []

def check (s : Source) (c : Call) : Except Mishap Verdict := do
  -- The log shows where every call stands.
  let _ ← join c.name.span c.closing.span
  match c.format? with
  | none => do
    let list ← join c.opening.span c.closing.span
    return ⟨c, none, [],
      [.missingArguments c.printer.name list (c.printer.formatIndex + 1) c.arguments.length]⟩
  | some argument =>
    if argument.isStringLiteral then do
      let format ← format s argument
      if c.printer.variadic then do
        let demands := format.demands
        let arguments := c.trailingArguments
        let pairs ← (arguments.zip demands).mapM fun (argument, demand) => do
          let cast ← cast? argument
          return (⟨argument, demand, cast⟩ : Pair)
        let count ← countDiagnostics c format demands arguments
        return ⟨c, some format, pairs,
          format.diagnostics ++ pairs.filterMap Pair.diagnostic? ++ count⟩
      else return ⟨c, some format, [], format.diagnostics⟩
    else do
      let identifier := (argument.single?.filter (·.kind = .ident)).map (·.lexeme)
      let span ← argumentSpan argument
      return ⟨c, none, [], [.nonLiteralFormat (c.start s argument) span identifier]⟩

def analyze (s : Source) (table : PrinterTable) : Except Mishap Analysis := do
  match ← tokenize s.name s.content with
  | .error fault => return ⟨s, [], [], [], [.unclosed fault], some fault⟩
  | .ok tokens => do
    let mentions ← scan table none tokens
    let verdicts ← (Mention.calls mentions).mapM (check s)
    let diagnostics := Mention.diagnostics mentions ++ verdicts.flatMap (·.diagnostics)
    return ⟨s, tokens, mentions, verdicts, Diagnostic.sort diagnostics, none⟩

def edit (start stop : Nat) (replacement : Text) : Except Mishap Edit :=
  (Edit.ofRange start stop replacement).mapError .edit

def wrap (a : Argument) (cType : Text) : Except Mishap (List Edit) := do
  let span ← argumentSpan a
  let opening ← edit span.start.offset span.start.offset ("(" ++ cType ++ ") (")
  let closing ← edit span.stop.offset span.stop.offset ")"
  return [opening, closing]

def castFixed (argument : Argument) (cType : Text) : Except Mishap (List Edit) := do
  let cast ← cast? argument
  if cast.isNone then wrap argument cType else return []

def castPaired (p : Pair) : Except Mishap (List Edit) :=
  match p.demand.cType? with
  | some cType => if p.isExplicit then return [] else wrap p.argument cType
  | none => return []

def castEdits (v : Verdict) : Except Mishap (List Edit) :=
  if v.isAborted then return []
  else do
    let fixed ← (v.call.fixedArguments.zip v.call.printer.fixedTypes).mapM fun (argument, cType) =>
      castFixed argument cType
    let paired ← v.pairs.mapM castPaired
    return fixed.flatten ++ paired.flatten

/-- The edits between the arguments behind the format, and behind the last of them. -/
def chainEdits (stop : Nat) (arguments : List Argument) (tags segments : List Text) :
    Except Mishap (List Edit) := do
  let inner ← (List.range (arguments.length - 1)).mapM fun k => do
    let before ← argumentSpan (← get arguments k)
    let after ← argumentSpan (← get arguments (k + 1))
    let tag ← get tags k
    let segment ← get segments (k + 1)
    edit before.stop.offset after.start.offset
      (", " ++ tag ++ " \x7d, \"" ++ segment ++ "\"" ++ ", \x7b ")
  let final ← argumentSpan (← last arguments)
  let tag ← last tags
  let segment ← last segments
  let ending ← edit final.stop.offset stop (", " ++ tag ++ " \x7d, \"" ++ segment ++ "\"" ++ " \x7d)")
  return inner ++ [ending]

def safeEdits (v : Verdict) : Except Mishap (List Edit) :=
  match v.format, v.call.format?, v.tags? with
  | some format, some argument, some tags => do
    let segments := format.segments
    let arguments := v.call.trailingArguments
    let segment ← get segments 0
    let lead := Text.ofNat segments.length ++ ", \x7b \"" ++ segment ++ "\""
    let start := (← argumentSpan argument).start.offset
    let stop := v.call.closing.span.stop.offset
    let name ← edit v.call.name.span.start.offset v.call.name.span.stop.offset
      v.call.printer.safeName
    if arguments = [] then
      let only ← edit start stop (lead ++ " \x7d)")
      return [name, only]
    else do
      let first ← argumentSpan (← get arguments 0)
      let opening ← edit start first.start.offset (lead ++ ", \x7b ")
      let chain ← chainEdits stop arguments tags segments
      return name :: opening :: chain
  | _, _, _ => do
    -- The log shows where a call stands that is left alone.
    let _ ← join v.call.name.span v.call.closing.span
    return []

def typecast (a : Analysis) : Except Mishap Text := do
  let edits ← a.verdicts.mapM castEdits
  (Edit.applyAll a.source.content edits.flatten).mapError .overlap

def optimize (a : Analysis) : Except Mishap Text := do
  let edits ← a.verdicts.mapM safeEdits
  (Edit.applyAll a.source.content edits.flatten).mapError .overlap

def line (s : Source) (number : Int) : Except Mishap Text :=
  if 1 ≤ number ∧ number ≤ s.lineCount then
    match s.line? number.toNat with
    | some content => .ok content
    | none => .error .index
  else .error .index

def frameRows (s : Source) (labels : List Label) (f : Frame) : Except Mishap (List Row) := do
  let rows ← (List.range (f.last + 1 - f.first).toNat).mapM fun (step : Nat) => do
    let number := f.first + step
    let content ← line s number
    return .line number.toNat content :: Row.marks labels number.toNat content
  return rows.flatten

def render (s : Source) (d : Diagnostic) (context : Int) : Except Mishap Text := do
  let help (indent : Text) : List Text :=
    match d.help with
    | none | some [] => []
    | some advice => [indent ++ " = help: " ++ advice]
  match d.primarySpan? with
  | none => return Text.ofLines (d.headline :: help " ")
  | some primary => do
    let frames := Frame.ofLabels d.labels context s.lineCount
    let final ← last frames
    let gutter := Text.fill (Text.ofInt final.last).length ' '
    let rows ← frames.mapM (frameRows s d.labels)
    return Text.ofLines
      ([d.headline, gutter ++ "--> " ++ primary.location, gutter ++ " |"] ++
        ([Row.gap].intercalate rows).map (Row.render (Text.ofInt final.last).length) ++
        [gutter ++ " |"] ++ help gutter)

def report (a : Analysis) : Except Mishap Text :=
  if a.diagnostics = [] then return a.source.name ++ ": ok"
  else do
    let frames ← a.diagnostics.mapM fun d => render a.source d 1
    return Text.joinWith "\n\n" frames ++ "\n\n" ++ a.source.name ++ ": " ++
      counted a.errors.length "error" ++ ", " ++ counted a.warnings.length "warning"

end Guarded

end FormatLint
