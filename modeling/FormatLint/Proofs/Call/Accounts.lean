import FormatLint.Proofs.Analysis.Errors
import FormatLint.Proofs.Format.Recognition

/-!
What is said about a call with a literal format. Demands and arguments are paired in order for as long
as there are both; a pair is reported if the cast of its argument disagrees, and so are the demands or
the arguments that are left. `Call.check_accounts` says that there is nothing else.
-/

namespace FormatLint

/-- The demands of a part of a format: one for each role of a directive, and none of other parts. -/
inductive PlacedPiece.Owns : PlacedPiece → List Demand → Prop
  | other {p : PlacedPiece} (other : ∀ d, p.piece ≠ .directive d) : Owns p []
  | directive {p : PlacedPiece} {d : Directive} {roles : List Role}
      (directive : p.piece = .directive d) (asks : d.Asks roles) :
      Owns p (roles.map fun role => ⟨d, p.span, role⟩)

theorem FormatString.demands_owned (f : FormatString) :
    ∃ groups, List.Forall₂ PlacedPiece.Owns f.parts groups ∧ f.demands = groups.flatten := by
  unfold demands directives
  induction f.parts with
  | nil => exact ⟨[], .nil, rfl⟩
  | cons p later ih =>
      obtain ⟨groups, owned, demands⟩ := ih
      cases piece : p.piece with
      | directive d =>
          obtain ⟨roles, asks, asked⟩ := Demand.exists_roles d p.span
          refine ⟨_ :: groups, .cons (.directive piece asks) owned, ?_⟩
          have found : p.directive? = some (d, p.span) := by simp [PlacedPiece.directive?, piece]
          rw [List.filterMap_cons_some found, List.flatMap_cons, demands, List.flatten_cons, ← asked]
      | _ =>
          refine ⟨[] :: groups, .cons (.other (by simp [piece])) owned, ?_⟩
          have noDirective : p.directive? = none := by simp [PlacedPiece.directive?, piece]
          rw [List.filterMap_cons_none noDirective, demands]
          rfl

/-- The family of the arguments that meet a demand: integers for widths and precisions, and what the
conversion reads, if it is known, for a value. -/
inductive Demand.Expects (d : Demand) : Family → Prop
  | amount (role : d.role = .width ∨ d.role = .precision) : Expects d .integer
  | value {conversion : Conversion} (role : d.role = .value)
      (known : d.directive.conversion? = some conversion) : Expects d conversion.family

theorem Demand.family?_eq_some_iff {d : Demand} {family : Family} :
    d.family? = some family ↔ d.Expects family := by
  constructor
  · intro found
    unfold family? at found
    split at found
    · rename_i role
      obtain ⟨conversion, known, rfl⟩ := Option.map_eq_some_iff.1 found
      exact .value role known
    · rename_i other
      cases found
      refine .amount ?_
      cases role : d.role with
      | value => exact absurd role other
      | width => exact .inl rfl
      | precision => exact .inr rfl
  · intro expects
    cases expects with
    | amount role => rcases role with role | role <;> simp [family?, role]
    | value role known => simp [family?, role, Directive.family?, known]

/-- The argument of the pair is cast to a type of another family than the demand has, and the
diagnostic says so. -/
inductive Pair.Mismatch (p : Pair) : Diagnostic → Prop
  | mk {expected given : Family} {cast : Cast} (expects : p.demand.Expects expected)
      (found : p.cast = some cast) (known : cast.family = some given) (differ : given ≠ expected) :
      Mismatch p (.typeMismatch p.demand.directive.text p.demand.span expected
        (p.demand.cType?.getD expected.cType) cast.span given cast.spelling)

/-- What is said about a pair: its mismatch, or nothing if it has none. -/
def Pair.Judged (p : Pair) : Option Diagnostic → Prop
  | some d => p.Mismatch d
  | none => ∀ d, ¬ p.Mismatch d

theorem Pair.diagnostic?_eq_some_iff {p : Pair} {d : Diagnostic} :
    p.diagnostic? = some d ↔ p.Mismatch d := by
  constructor
  · intro found
    obtain ⟨_, _, _, expects, cast, known, differ, rfl⟩ := diagnostic?_inversion found
    exact .mk (Demand.family?_eq_some_iff.1 expects) cast known differ
  · rintro ⟨expects, found, known, differ⟩
    simp [diagnostic?, Demand.family?_eq_some_iff.2 expects, found, known, differ]

theorem Pair.judged (p : Pair) : p.Judged p.diagnostic? := by
  cases found : p.diagnostic? with
  | some d => exact diagnostic?_eq_some_iff.1 found
  | none =>
      intro d mismatch
      rw [diagnostic?_eq_some_iff.2 mismatch] at found
      cases found

namespace Call

theorem length_pair (demands : List Demand) (arguments : List Argument) :
    (pair demands arguments).length = min demands.length arguments.length := by
  rw [pair, List.length_map, List.length_zip, Nat.min_comm]

theorem pair_getElem? {demands : List Demand} {arguments : List Argument} {i : Nat} {p : Pair}
    (found : (pair demands arguments)[i]? = some p) :
    arguments[i]? = some p.argument ∧ demands[i]? = some p.demand ∧ p.cast = p.argument.cast? := by
  rw [pair, List.getElem?_map] at found
  obtain ⟨⟨argument, demand⟩, zipped, rfl⟩ := Option.map_eq_some_iff.1 found
  obtain ⟨first, second⟩ := List.getElem?_zip_eq_some.1 zipped
  exact ⟨first, second, rfl⟩

/-- The span of all the arguments behind the format. If there are none, it is the parenthesis that
closes the list. -/
inductive GivenAt (c : Call) : Span → Prop
  | closing (bare : c.trailingArguments = []) : GivenAt c c.closing.span
  | through {first last : Argument} (begins : c.trailingArguments.head? = some first)
      (ends : c.trailingArguments.getLast? = some last) :
      GivenAt c (first.span.through last.span)

/-- What is said about the numbers of demands and arguments. -/
inductive Counted (c : Call) (f : FormatString) : List Diagnostic → Prop
  | met (same : f.demands.length = c.trailingArguments.length) : Counted c f []
  | unmet {first last : Demand} {given : Span}
      (fewer : c.trailingArguments.length < f.demands.length)
      (begins : f.demands[c.trailingArguments.length]? = some first)
      (ends : f.demands.getLast? = some last) (place : c.GivenAt given) :
      Counted c f [.excessDirectives (first.span.through last.span) given
        (f.demands.length - c.trailingArguments.length)]
  | extra {first last : Argument} (more : f.demands.length < c.trailingArguments.length)
      (begins : c.trailingArguments[f.demands.length]? = some first)
      (ends : c.trailingArguments.getLast? = some last) :
      Counted c f [.excessArguments f.span (first.span.through last.span)
        (c.trailingArguments.length - f.demands.length)]

theorem throughAll?_drop {α : Type} (place : α → Span) {elements : List α} {n : Nat}
    (inside : n < elements.length) :
    ∃ first last, elements[n]? = some first ∧ elements.getLast? = some last ∧
      throughAll? ((elements.drop n).map place) = some ((place first).through (place last)) := by
  have present : elements ≠ [] := List.ne_nil_of_length_pos (by omega)
  have begins : elements[n]? = some elements[n] := List.getElem?_eq_getElem inside
  have ends : elements.getLast? = some (elements.getLast present) :=
    List.getLast?_eq_some_getLast present
  refine ⟨_, _, begins, ends, ?_⟩
  rw [throughAll?, List.head?_map, List.head?_drop, begins, List.getLast?_map, List.getLast?_drop,
    if_neg (Nat.not_le.2 inside), ends]
  rfl

theorem givenAt (c : Call) :
    c.GivenAt ((throughAll? (c.trailingArguments.map (·.span))).getD c.closing.span) := by
  by_cases present : 0 < c.trailingArguments.length
  · obtain ⟨first, last, begins, ends, through⟩ := throughAll?_drop Argument.span present
    rw [List.drop_zero] at through
    rw [through]
    exact .through (List.head?_eq_getElem?.trans begins) ends
  · have bare : c.trailingArguments = [] := List.eq_nil_of_length_eq_zero (by omega)
    rw [bare]
    exact .closing bare

theorem counted (c : Call) (f : FormatString) :
    c.Counted f (c.countDiagnostics f f.demands c.trailingArguments) := by
  have nothing {α : Type} (place : α → Span) {elements : List α} {n : Nat}
      (outside : elements.length ≤ n) : throughAll? ((elements.drop n).map place) = none := by
    rw [List.drop_eq_nil_of_le outside]
    rfl
  rw [countDiagnostics, List.length_drop, List.length_drop]
  rcases Nat.lt_trichotomy c.trailingArguments.length f.demands.length with fewer | same | more
  · obtain ⟨first, last, begins, ends, through⟩ := throughAll?_drop Demand.span fewer
    rw [through]
    exact .unmet fewer begins ends c.givenAt
  · rw [nothing Demand.span (Nat.le_of_eq same.symm), nothing Argument.span (Nat.le_of_eq same)]
    exact .met same.symm
  · obtain ⟨first, last, begins, ends, through⟩ := throughAll?_drop Argument.span more
    rw [nothing Demand.span (Nat.le_of_lt more), through]
    exact .extra more begins ends

/-- Every demand and every argument is accounted for. -/
structure Accounts (c : Call) (f : FormatString) (v : Verdict) : Prop where
  length : v.pairs.length = min f.demands.length c.trailingArguments.length
  pairs : ∀ (i : Nat) (p : Pair), v.pairs[i]? = some p →
    c.trailingArguments[i]? = some p.argument ∧ f.demands[i]? = some p.demand ∧
      p.cast = p.argument.cast?
  diagnostics : ∃ mismatches counts, List.Forall₂ Pair.Judged v.pairs mismatches ∧
    c.Counted f counts ∧
      v.diagnostics = ((f.parts.filter (·.piece.isInvalid)).map fun p =>
        .invalidDirective p.span p.piece.source) ++ mismatches.reduceOption ++ counts

/-- A call with a literal format. If the printer is not variadic, nothing but the directives without a
conversion is reported. -/
theorem check_accounts {c : Call} {a : Argument} (s : Source) (present : c.format? = some a)
    (literal : a.isStringLiteral = true) :
    ∃ f groups, FormatString.ofArgument? a = some f ∧ (c.check s).call = c ∧
      (c.check s).format = some f ∧ List.Forall₂ PlacedPiece.Owns f.parts groups ∧
      f.demands = groups.flatten ∧
      (c.printer.variadic = true → c.Accounts f (c.check s)) ∧
      (c.printer.variadic = false → (c.check s).pairs = [] ∧
        (c.check s).diagnostics = (f.parts.filter (·.piece.isInvalid)).map fun p =>
          .invalidDirective p.span p.piece.source) := by
  obtain ⟨f, spelled⟩ : ∃ f, FormatString.ofArgument? a = some f := ⟨_, if_pos literal⟩
  obtain ⟨groups, owned, demands⟩ := f.demands_owned
  have invalid := f.diagnostics_eq
  rw [check_of_format s present spelled]
  cases variadic : c.printer.variadic with
  | false => exact ⟨f, groups, spelled, rfl, rfl, owned, demands, nofun, fun _ => ⟨rfl, invalid⟩⟩
  | true =>
      refine ⟨f, groups, spelled, rfl, rfl, owned, demands, fun _ => ?_, nofun⟩
      refine ⟨length_pair _ _, fun i p => pair_getElem?,
        (pair f.demands c.trailingArguments).map Pair.diagnostic?, _, ?_, c.counted f, ?_⟩
      · exact List.forall₂_map_right_iff.2 (List.forall₂_same.2 fun p _ => p.judged)
      · have listed : ((pair f.demands c.trailingArguments).map Pair.diagnostic?).reduceOption =
            (pair f.demands c.trailingArguments).filterMap Pair.diagnostic? := by
          rw [List.reduceOption, List.filterMap_map]
          rfl
        rw [listed, ← invalid]
        rfl

/-- A width that is cast to a string, an escaped percent sign, an unknown letter, and an argument too
few. -/
def lackingCall : List Lexeme :=
  [⟨[], .ident, "printf"⟩, ⟨[], .openParen, "("⟩, ⟨[], .string, "\"%*d%%%y%s\""⟩,
    ⟨[], .comma, ","⟩, ⟨[], .openParen, "("⟩, ⟨[], .ident, "char"⟩, ⟨[], .punct, "*"⟩,
    ⟨[], .closeParen, ")"⟩, ⟨[], .ident, "a"⟩, ⟨[], .comma, ","⟩, ⟨[], .openParen, "("⟩,
    ⟨[], .ident, "int"⟩, ⟨[], .closeParen, ")"⟩, ⟨[], .ident, "b"⟩, ⟨[], .comma, ","⟩,
    ⟨[], .ident, "c"⟩, ⟨[], .closeParen, ")"⟩, ⟨[], .punct, ";"⟩]

theorem check_accounts_lackingCall :
    ∃ (s : Source) (tokens : List Token) (c : Call) (a : Argument),
      s.content = "printf(\"%*d%%%y%s\",(char*)a,(int)b,c);" ∧
      Token.tokenize s.name s.content = .ok tokens ∧
      Mention.calls (Mention.ofTokens .standard tokens) = [c] ∧
      c.format? = some a ∧ a.isStringLiteral = true ∧ c.printer.variadic = true ∧
      ∃ f groups, FormatString.ofArgument? a = some f ∧ (c.check s).call = c ∧
        (c.check s).format = some f ∧ List.Forall₂ PlacedPiece.Owns f.parts groups ∧
        f.demands = groups.flatten ∧ c.Accounts f (c.check s) ∧
        f.demands.map (·.role) = [.width, .value, .value, .value] ∧
        (c.check s).diagnostics.map (fun d => (d.problem, d.labels.map (·.span.start.offset))) =
          [(.invalidDirective, [13]), (.typeMismatch, [8, 19]), (.excessDirectives, [15, 19])] := by
  have chain : Lexeme.Chain lackingCall [] := by
    repeat' first
      | exact .nil
      | refine .cons (by decide) (by decide) (Head.read_iff_form.1 rfl) ?_
  have read := Lexeme.tokenize_words chain []
  let s : Source := ⟨[], Lexeme.flatten lackingCall⟩
  obtain ⟨c, a, calls, present, literal, variadic, roles, reported⟩ :
      ∃ c a, Mention.calls (Mention.ofTokens .standard
          (Token.place [] .first (lackingCall ++ [⟨[], .eof, []⟩]))) = [c] ∧
        c.format? = some a ∧ a.isStringLiteral = true ∧ c.printer.variadic = true ∧
        (FormatString.ofArgument? a).map (fun f => f.demands.map (·.role)) =
          some [.width, .value, .value, .value] ∧
        (c.check s).diagnostics.map (fun d => (d.problem, d.labels.map (·.span.start.offset))) =
          [(.invalidDirective, [13]), (.typeMismatch, [8, 19]), (.excessDirectives, [15, 19])] :=
    ⟨_, _, rfl, rfl, rfl, rfl, by cbv, by cbv⟩
  obtain ⟨f, groups, spelled, call, format, owned, demands, accounts, _⟩ :=
    check_accounts s present literal
  rw [spelled] at roles
  exact ⟨s, _, c, a, rfl, read, calls, present, literal, variadic, f, groups, spelled, call, format,
    owned, demands, accounts variadic, Option.some.inj roles, reported⟩

end Call

end FormatLint
