import FormatLint.Cast
import FormatLint.Source.Basic

/-!
Checking a call: every argument that the format demands has to be there, no other may be, and a cast
has to agree with the directive that reads the argument.
-/

namespace FormatLint

/-- An argument and the demand that it meets. -/
structure Pair where
  argument : Argument
  demand : Demand
  cast : Option Cast
  deriving DecidableEq

namespace Pair

/-- The family that the cast of the argument gives it. -/
def family? (p : Pair) : Option Family := p.cast.bind (·.family)

/-- The argument is cast to a known type. -/
def isExplicit (p : Pair) : Bool := p.family?.isSome

/-- The disagreement between the demand and the cast, if both have a family. -/
def diagnostic? (p : Pair) : Option Diagnostic :=
  match p.demand.family?, p.cast with
  | some expected, some cast =>
    match cast.family with
    | some given =>
      if given = expected then none
      else
        some (.typeMismatch p.demand.directive.text p.demand.span expected
          (p.demand.cType?.getD expected.cType) cast.span given cast.spelling)
    | none => none
  | _, _ => none

end Pair

/-- A call with its format, if it has one, and the arguments that could be paired with what the
format demands. -/
structure Verdict where
  call : Call
  format : Option FormatString
  pairs : List Pair
  diagnostics : List Diagnostic
  deriving DecidableEq

namespace Verdict

/-- The call has no format that could be read. -/
def isAborted (v : Verdict) : Bool := v.format.isNone

def hasErrors (v : Verdict) : Bool := Diagnostic.hasErrors v.diagnostics

end Verdict

namespace Call

/-- The text of the call before its format, one space apart. -/
def start (c : Call) (source : Source) (format : Argument) : Text :=
  let written := Text.squeeze (source.slice c.name.span.start.offset format.span.start.offset)
  if written.getLast? = some (.char ',') then written ++ " " else written

/-- Each argument with the demand in its place. -/
def pair (demands : List Demand) (arguments : List Argument) : List Pair :=
  (arguments.zip demands).map fun (argument, demand) => ⟨argument, demand, argument.cast?⟩

/-- The span from the first to the last of some spans. -/
def throughAll? (spans : List Span) : Option Span :=
  match spans.head?, spans.getLast? with
  | some first, some last => some (first.through last)
  | _, _ => none

/-- More demands than arguments, or more arguments than demands. -/
def countDiagnostics (c : Call) (format : FormatString) (demands : List Demand)
    (arguments : List Argument) : List Diagnostic :=
  let unmet := demands.drop arguments.length
  let extra := arguments.drop demands.length
  match throughAll? (unmet.map (·.span)), throughAll? (extra.map (·.span)) with
  | some directives, _ =>
    let given := (throughAll? (arguments.map (·.span))).getD c.closing.span
    [.excessDirectives directives given unmet.length]
  | none, some arguments => [.excessArguments format.span arguments extra.length]
  | none, none => []

/-- Checks the call. Without a literal format nothing is known about the arguments; a printer that
takes an argument list object has none to check. -/
def check (c : Call) (source : Source) : Verdict :=
  match c.format? with
  | none =>
    let list := c.opening.span.through c.closing.span
    ⟨c, none, [],
      [.missingArguments c.printer.name list (c.printer.formatIndex + 1) c.arguments.length]⟩
  | some argument =>
    match FormatString.ofArgument? argument with
    | none =>
      let identifier := (argument.single?.filter (·.kind = .ident)).map (·.lexeme)
      ⟨c, none, [],
        [.nonLiteralFormat (c.start source argument) argument.span identifier]⟩
    | some format =>
      if c.printer.variadic then
        let demands := format.demands
        let arguments := c.trailingArguments
        let pairs := pair demands arguments
        ⟨c, some format, pairs,
          format.diagnostics ++ pairs.filterMap Pair.diagnostic? ++
            c.countDiagnostics format demands arguments⟩
      else ⟨c, some format, [], format.diagnostics⟩

end Call

end FormatLint
