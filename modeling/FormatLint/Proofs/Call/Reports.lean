import FormatLint.Check
import FormatLint.Proofs.Call.Layout

/-!
What is reported on one call, said once for each function that reports: what is known when a pair is
reported, what the count of arguments can lead to, and why an argument list makes no call.
-/

namespace FormatLint

/-- A pair is reported if its argument is cast to a type of another family than its demand has. -/
theorem Pair.diagnostic?_inversion {p : Pair} {d : Diagnostic} (found : p.diagnostic? = some d) :
    ∃ expected cast given, p.demand.family? = some expected ∧ p.cast = some cast ∧
      cast.family = some given ∧ given ≠ expected ∧
      d = .typeMismatch p.demand.directive.text p.demand.span expected
        (p.demand.cType?.getD expected.cType) cast.span given cast.spelling := by
  unfold diagnostic? at found
  split at found
  · rename_i expected cast demanded written
    split at found
    · rename_i given known
      split at found
      · cases found
      · rename_i differ
        exact ⟨expected, cast, given, demanded, written, known, differ, (Option.some.inj found).symm⟩
    · cases found
  · cases found

namespace Call

theorem mem_countDiagnostics {c : Call} {d : Diagnostic} {format : FormatString}
    {demands : List Demand} {arguments : List Argument}
    (member : d ∈ c.countDiagnostics format demands arguments) :
    (∃ directives given count, d = .excessDirectives directives given count) ∨
      ∃ extra count, d = .excessArguments format.span extra count := by
  unfold countDiagnostics at member
  dsimp only at member
  split at member
  · exact .inl ⟨_, _, _, List.mem_singleton.1 member⟩
  · exact .inr ⟨_, _, List.mem_singleton.1 member⟩
  · cases member

/-- The diagnostics that the check of a call can make. -/
inductive Reported : Diagnostic → Prop
  | missing (callee : Text) (list : Span) (expected given : Nat) :
      Reported (.missingArguments callee list expected given)
  | nonLiteral (start : Text) (format : Span) (identifier : Option Text) :
      Reported (.nonLiteralFormat start format identifier)
  | invalid (span : Span) (directive : Text) : Reported (.invalidDirective span directive)
  | mismatch (directive : Text) (span : Span) (expected : Family) (expectedType : Text)
      (castSpan : Span) (given : Family) (castType : Text) :
      Reported (.typeMismatch directive span expected expectedType castSpan given castType)
  | unmet (directives given : Span) (count : Nat) :
      Reported (.excessDirectives directives given count)
  | extra (format arguments : Span) (count : Nat) :
      Reported (.excessArguments format arguments count)

theorem reported_of_check {c : Call} {source : Source} {d : Diagnostic}
    (member : d ∈ (c.check source).diagnostics) : Reported d := by
  have format {f : FormatString} (member : d ∈ f.diagnostics) : Reported d := by
    obtain ⟨directive, _, rfl⟩ := List.mem_map.1 member
    exact .invalid _ _
  unfold check at member
  split at member
  · rw [List.mem_singleton.1 member]
    exact .missing _ _ _ _
  · split at member
    · rw [List.mem_singleton.1 member]
      exact .nonLiteral _ _ _
    · split at member
      · rcases List.mem_append.1 member with member | member
        · rcases List.mem_append.1 member with member | member
          · exact format member
          · obtain ⟨p, _, found⟩ := List.mem_filterMap.1 member
            obtain ⟨_, _, _, _, _, _, _, rfl⟩ := Pair.diagnostic?_inversion found
            exact .mismatch _ _ _ _ _ _ _
        · rcases mem_countDiagnostics member with ⟨_, _, _, rfl⟩ | ⟨_, _, rfl⟩
          · exact .unmet _ _ _
          · exact .extra _ _ _
      · exact format member

end Call

/-- Why an argument list makes no call: it is never closed, or an argument is missing. -/
theorem Mention.readCall_malformed_inversion {printer : Printer} {name opening : Token}
    {rest : List Token} {d : Diagnostic} (read : readCall printer name opening rest = .malformed d) :
    Slot.cut 0 rest = none ∧ d = .unbalancedParentheses printer.name name.span opening.span ∨
      ∃ gap, d = .emptyArgument printer.name gap := by
  unfold readCall at read
  split at read
  · rename_i never
    exact .inl ⟨never, (Mention.malformed.inj read).symm⟩
  · dsimp only at read
    split at read
    · cases read
    · split at read
      · exact .inr ⟨_, (Mention.malformed.inj read).symm⟩
      · cases read

end FormatLint
