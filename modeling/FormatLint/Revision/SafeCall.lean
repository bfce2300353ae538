import FormatLint.Check
import FormatLint.Edit

/-!
Turning calls into calls of the `safe_` functions, which take the format already split: instead of a
format the number of its segments, and then segments and tagged arguments in turns. Only calls that
are right and use nothing but plain directives are turned.
-/

namespace FormatLint

namespace Demand

/-- The tag for the argument of a demand. A place to store a count has none. -/
def tag? (d : Demand) : Option Text :=
  if d.directive.conversion? = some .count then none else d.family?.map Family.tag

end Demand

namespace Verdict

/-- The tags of the arguments behind the format, if the call can be turned into a safe one. -/
def tags? (v : Verdict) : Option (List Text) :=
  match v.format with
  | none => none
  | some format =>
    if !v.hasErrors && v.call.printer.variadic && format.directives.all (·.1.isPlain) &&
        v.pairs.length = v.call.trailingArguments.length &&
        v.pairs.length = format.demands.length then
      v.pairs.mapM (·.demand.tag?)
    else none

/-- The segments and arguments behind what `lead` spells, up to the end of the call. -/
def chainEdits (stop start : Nat) (lead : Text) : List (Argument × Text × Text) → List Edit
  | [] => [⟨start, stop, lead ++ " \x7d)"⟩]
  | (argument, tag, segment) :: later =>
    ⟨start, argument.span.start.offset, lead ++ ", \x7b "⟩ ::
      chainEdits stop argument.span.stop.offset
        (", " ++ tag ++ " \x7d, \"" ++ segment ++ "\"") later

/-- The edits that turn the call into a safe one, if it can be. -/
def safeEdits? (v : Verdict) : Option (List Edit) :=
  match v.format, v.call.format?, v.tags? with
  | some format, some argument, some tags =>
    let segments := format.segments
    let lead := Text.ofNat segments.length ++ ", \x7b \"" ++ segments.headD [] ++ "\""
    let tagged := v.call.trailingArguments.zip (tags.zip segments.tail)
    some
      (⟨v.call.name.span.start.offset, v.call.name.span.stop.offset, v.call.printer.safeName⟩ ::
        chainEdits v.call.closing.span.stop.offset argument.span.start.offset lead tagged)
  | _, _, _ => none

end Verdict

end FormatLint
