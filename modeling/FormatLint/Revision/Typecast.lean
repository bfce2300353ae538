import FormatLint.Check
import FormatLint.Edit

/-!
Writing out the types of arguments: every argument that has no known cast yet is put in parentheses
behind a cast to the type that its parameter or its directive asks for.
-/

namespace FormatLint

/-- Puts the argument behind a cast. What stands inside it stays where it is. -/
def Argument.castEdits (a : Argument) (cType : Text) : List Edit :=
  [.insertion a.span.start.offset ("(" ++ cType ++ ") ("), .insertion a.span.stop.offset ")"]

namespace Verdict

/-- Casts of the arguments before the format that have none. -/
def fixedCastEdits (v : Verdict) : List Edit :=
  (v.call.fixedArguments.zip v.call.printer.fixedTypes).flatMap fun (argument, cType) =>
    if argument.cast?.isNone then argument.castEdits cType else []

/-- Casts of the arguments behind the format that have none to a known type. -/
def pairCastEdits (v : Verdict) : List Edit :=
  v.pairs.flatMap fun p =>
    match p.demand.cType? with
    | some cType => if p.isExplicit then [] else p.argument.castEdits cType
    | none => []

def castEdits (v : Verdict) : List Edit :=
  if v.isAborted then [] else v.fixedCastEdits ++ v.pairCastEdits

end Verdict

end FormatLint
