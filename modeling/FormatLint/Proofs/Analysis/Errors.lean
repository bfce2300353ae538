import FormatLint.Analysis
import FormatLint.Proofs.Call.Reports
import FormatLint.Proofs.Format.Grammar
import FormatLint.Proofs.Token.StringLiteral

/-!
Which files are free of errors. `Analysis.errors_eq_nil_iff` says that the analysis reports no error
exactly if the file can be cut into tokens and every call in it is safe: its argument list is closed,
its format is a literal of the grammar, and no argument that this demands is missing.
-/

namespace FormatLint

namespace FormatString

theorem text_literalBodies (a : Argument) :
    Located.text a.literalBodies.flatten = a.code.flatMap Token.body := by
  have bodies : (Located.text ∘ Token.literalBody) = Token.body :=
    funext fun t => Token.text_literalBody t
  simp only [Located.text, Argument.literalBodies, List.map_flatten, List.map_map]
  change (a.code.map (Located.text ∘ Token.literalBody)).flatten = _
  rw [bodies, List.flatMap_def]

theorem directives_map {a : Argument} {f : FormatString} (read : ofArgument? a = some f) :
    f.directives.map Prod.fst =
      (Piece.ofText (a.code.flatMap Token.body)).filterMap Piece.directive? := by
  have projected : (Option.map Prod.fst) ∘ PlacedPiece.directive? =
      Piece.directive? ∘ PlacedPiece.piece := by
    funext p
    simp only [Function.comp_apply, PlacedPiece.directive?]
    cases p.piece <;> rfl
  unfold ofArgument? at read
  split at read
  · cases read
    simp only [directives]
    rw [List.map_filterMap]
    change List.filterMap (Option.map Prod.fst ∘ PlacedPiece.directive?) _ = _
    rw [projected, ← List.filterMap_map, PlacedPiece.place_pieces, text_literalBodies]
  · cases read

theorem demands_length {a : Argument} {f : FormatString} (read : ofArgument? a = some f) :
    f.demands.length = Piece.demandCount (Piece.ofText (a.code.flatMap Token.body)) := by
  rw [demands, Piece.demandCount, ← directives_map read]
  induction f.directives with
  | nil => rfl
  | cons d later ih =>
      rw [List.flatMap_cons, List.length_append, List.map_cons, List.foldr_cons, ih,
        Directive.length_ofDirective]

theorem hasErrors_diagnostics (f : FormatString) :
    Diagnostic.hasErrors f.diagnostics = false ↔
      ∀ d ∈ f.directives.map Prod.fst, d.isInvalid = false := by
  have error : ∀ (span : Span) (text : Text),
      (Diagnostic.invalidDirective span text).isError = true := fun _ _ => rfl
  simp only [Diagnostic.hasErrors, diagnostics, List.any_eq_false, List.mem_map,
    List.mem_filter]
  constructor
  · rintro errorFree d ⟨placed, member, rfl⟩
    cases invalid : placed.1.isInvalid with
    | false => rfl
    | true => exact absurd (error _ _) (errorFree _ ⟨placed, ⟨member, invalid⟩, rfl⟩)
  · rintro valid _ ⟨placed, ⟨member, invalid⟩, rfl⟩
    rw [valid placed.1 ⟨placed, member, rfl⟩] at invalid
    cases invalid

end FormatString

theorem Pair.diagnostic?_isError {p : Pair} {d : Diagnostic} (found : p.diagnostic? = some d) :
    d.isError = false := by
  obtain ⟨_, _, _, _, _, _, _, rfl⟩ := diagnostic?_inversion found
  rfl

namespace Call

theorem throughAll?_eq_none_iff {spans : List Span} : throughAll? spans = none ↔ spans = [] := by
  cases spans with
  | nil => simp [throughAll?]
  | cons first later => simp [throughAll?, List.getLast?_cons]

theorem hasErrors_countDiagnostics (c : Call) (format : FormatString) (demands : List Demand)
    (arguments : List Argument) :
    Diagnostic.hasErrors (c.countDiagnostics format demands arguments) = false ↔
      demands.length ≤ arguments.length := by
  have unmet : throughAll? ((demands.drop arguments.length).map (·.span)) = none ↔
      demands.length ≤ arguments.length := by
    rw [throughAll?_eq_none_iff, List.map_eq_nil_iff, List.drop_eq_nil_iff]
  rw [← unmet]
  unfold countDiagnostics
  dsimp only
  split
  · rename_i found
    rw [found]
    simp [Diagnostic.hasErrors, Diagnostic.excessDirectives, Diagnostic.isError,
      Diagnostic.severity, Problem.severity]
  · rename_i missing found
    rw [missing]
    simp [Diagnostic.hasErrors, Diagnostic.excessArguments, Diagnostic.isError,
      Diagnostic.severity, Problem.severity]
  · rename_i missing _
    rw [missing]
    simp [Diagnostic.hasErrors]

theorem ofArgument?_eq_none_iff {a : Argument} :
    FormatString.ofArgument? a = none ↔ ¬ ∀ t ∈ a.code, t.kind = .string := by
  rw [FormatString.ofArgument?_eq_none_iff]
  simp [Argument.isStringLiteral]

theorem hasErrors_check_of_missing {c : Call} (source : Source) (missing : c.format? = none) :
    (c.check source).hasErrors = true := by
  unfold check
  rw [missing]
  rfl

theorem hasErrors_check_of_other {c : Call} {a : Argument} (source : Source)
    (found : c.format? = some a) (other : FormatString.ofArgument? a = none) :
    (c.check source).hasErrors = true := by
  unfold check
  rw [found]
  dsimp only
  rw [other]
  rfl

theorem check_of_format {c : Call} {a : Argument} {f : FormatString} (s : Source)
    (present : c.format? = some a) (spelled : FormatString.ofArgument? a = some f) :
    c.check s = if c.printer.variadic then
      ⟨c, some f, pair f.demands c.trailingArguments,
        f.diagnostics ++ (pair f.demands c.trailingArguments).filterMap Pair.diagnostic? ++
          c.countDiagnostics f f.demands c.trailingArguments⟩
      else ⟨c, some f, [], f.diagnostics⟩ := by
  unfold check
  rw [present]
  dsimp only
  rw [spelled]

theorem hasErrors_check_of_literal {c : Call} {a : Argument} {format : FormatString}
    (source : Source) (found : c.format? = some a)
    (literal : FormatString.ofArgument? a = some format) :
    (c.check source).hasErrors = false ↔
      (∀ d ∈ format.directives.map Prod.fst, d.isInvalid = false) ∧
        (c.printer.variadic = true → format.demands.length ≤ c.trailingArguments.length) := by
  have valid := FormatString.hasErrors_diagnostics format
  have counted := hasErrors_countDiagnostics c format format.demands c.trailingArguments
  have warnings : Diagnostic.hasErrors
      ((pair format.demands c.trailingArguments).filterMap Pair.diagnostic?) = false := by
    simp only [Diagnostic.hasErrors, List.any_eq_false, List.mem_filterMap]
    rintro d ⟨p, _, diagnosed⟩
    simp [Pair.diagnostic?_isError diagnosed]
  rw [check_of_format source found literal]
  split
  · rename_i variadic
    rw [Verdict.hasErrors, Diagnostic.hasErrors_append, Diagnostic.hasErrors_append, warnings,
      Bool.or_false, Bool.or_eq_false_iff, valid, counted]
    simp [variadic]
  · rename_i fixed
    rw [Verdict.hasErrors, valid]
    simp [fixed]

/-- A call is free of errors exactly if its format is a literal whose directives all have a
conversion, and a variadic printer is given every argument that they demand. -/
theorem hasErrors_check_iff (c : Call) (source : Source) :
    (c.check source).hasErrors = false ↔
      ∃ a, c.format? = some a ∧ (∀ t ∈ a.code, t.kind = .string) ∧
        (∀ d ∈ (Piece.ofText (a.code.flatMap Token.body)).filterMap Piece.directive?,
          d.isInvalid = false) ∧
        (c.printer.variadic = true →
          Piece.demandCount (Piece.ofText (a.code.flatMap Token.body)) ≤
            c.trailingArguments.length) := by
  cases found : c.format? with
  | none => simp [hasErrors_check_of_missing source found]
  | some a =>
      cases read : FormatString.ofArgument? a with
      | none =>
          have noLiteral := ofArgument?_eq_none_iff.1 read
          rw [hasErrors_check_of_other source found read]
          simp only [Bool.true_eq_false, Option.some.injEq, exists_eq_left', false_iff]
          exact fun safe => noLiteral safe.1
      | some format =>
          have literal : ∀ t ∈ a.code, t.kind = .string := by
            refine Classical.byContradiction fun other => ?_
            rw [ofArgument?_eq_none_iff.2 other] at read
            cases read
          rw [hasErrors_check_of_literal source found read, FormatString.directives_map read,
            FormatString.demands_length read]
          simp only [Option.some.injEq, exists_eq_left']
          exact ⟨fun checked => ⟨literal, checked⟩, fun safe => safe.2⟩

end Call

namespace Slot

/-- The list of arguments is safe for the printer: it is closed and has no gaps, its format is a
literal of the grammar, and a variadic printer is given every argument that the format demands. -/
structure Safe (printer : Printer) (slots : List Slot) : Prop where
  listed : Listed 0 slots
  proper : ∀ s ∈ slots, s.IsBlank → slots = [s]
  format : ∃ s ∈ slots[printer.formatIndex]?, ¬ s.IsBlank ∧
    (∀ t ∈ Token.code s.tokens, t.kind = .string) ∧
    ∃ demanded, Piece.Units ((Token.code s.tokens).flatMap Token.body) demanded ∧
      (printer.variadic = true → demanded ≤ (slots.drop (printer.formatIndex + 1)).length)

end Slot

theorem Enclosed.whole {t : Text} (enclosed : Enclosed t) : Whole t := by
  induction enclosed with
  | nil => exact .nil
  | escape _ ih => exact .escape ih
  | plain noSlash _ _ _ ih => exact .plain noSlash ih

namespace Site

/-- A safe list of arguments is written at the site. -/
def IsSafe (s : Site) : Prop :=
  ∃ slots after, s.later = Slot.written slots ++ after ∧ Slot.Safe s.printer slots

/-- The call that is read at the site if the slots are written there. -/
def call (s : Site) (slots : List Slot) : Call :=
  ⟨s.printer, s.name, s.opening, Slot.closing s.opening slots, Slot.arguments slots⟩

theorem mention_eq_call_iff {s : Site} {c : Call} :
    s.mention = .call c ↔ ∃ slots after, s.later = Slot.written slots ++ after ∧
      Slot.Listed 0 slots ∧ Slot.Proper slots ∧ c = s.call slots :=
  Mention.readCall_eq_call_iff

theorem slot_token_mem {s : Site} {slots : List Slot} {after : List Token} {slot : Slot}
    {t : Token} (written : s.later = Slot.written slots ++ after) (listed : slot ∈ slots)
    (inside : t ∈ slot.tokens) : t ∈ s.tokens := by
  have inWritten : t ∈ Slot.written slots :=
    List.mem_flatMap.2 ⟨slot, listed, List.mem_append_left _ inside⟩
  rw [tokens, written]
  simp [inWritten]

theorem argument_code {slots : List Slot} (proper : Slot.Proper slots)
    (filled : Slot.areBare slots = false) (index : Nat) :
    (Slot.arguments slots)[index]?.map Argument.code =
      slots[index]?.map fun s => Token.code s.tokens := by
  have tokens := congrArg (fun l : List (List Token) => l[index]?.map Token.code)
    (Slot.arguments_tokens proper filled)
  simp only [List.getElem?_map, Option.map_map] at tokens
  have trimmed : (Token.code ∘ Slot.trimmed) = fun s : Slot => Token.code s.tokens :=
    funext fun s => Token.code_trimComments s.tokens
  rw [trimmed] at tokens
  exact tokens

theorem format_whole {source : Source} {s : Site} {slots : List Slot} {after : List Token}
    {slot : Slot} (read : Token.tokenize source.name source.content = .ok s.tokens)
    (written : s.later = Slot.written slots ++ after) (member : slot ∈ slots)
    (literal : ∀ t ∈ Token.code slot.tokens, t.kind = .string) :
    Whole ((Token.code slot.tokens).flatMap Token.body) := by
  refine Enclosed.whole ?_
  rw [List.flatMap_def]
  refine Enclosed.flatten fun body inside => ?_
  obtain ⟨t, coded, rfl⟩ := List.mem_map.1 inside
  have stands := slot_token_mem written member (List.mem_filter.1 coded).1
  exact (Token.string_lexeme read stands (literal t coded)).1

/-- The call that is read from a list of arguments is free of errors exactly if the list is safe. -/
theorem hasErrors_call_iff {source : Source} {s : Site} {slots : List Slot} {after : List Token}
    (read : Token.tokenize source.name source.content = .ok s.tokens)
    (written : s.later = Slot.written slots ++ after) (listed : Slot.Listed 0 slots)
    (proper : Slot.Proper slots) :
    ((s.call slots).check source).hasErrors = false ↔ Slot.Safe s.printer slots := by
  rw [Call.hasErrors_check_iff]
  change (∃ a, (Slot.arguments slots)[s.printer.formatIndex]? = some a ∧ _ ∧ _ ∧
    (s.printer.variadic = true → _ ≤
      ((Slot.arguments slots).drop (s.printer.formatIndex + 1)).length)) ↔ _
  cases bare : Slot.areBare slots with
  | true =>
      obtain ⟨only, rfl, blank⟩ := Slot.areBare_iff.1 bare
      have empty : Slot.arguments [only] = [] := by simp [Slot.arguments, bare]
      constructor
      · rintro ⟨a, found, _⟩
        rw [empty] at found
        cases found
      · rintro ⟨_, _, slot, found, filled, _⟩
        have member := List.mem_of_getElem? found
        rw [List.mem_singleton.1 member] at filled
        exact absurd blank filled
  | false =>
      have lengths := congrArg List.length (Slot.arguments_tokens proper bare)
      simp only [List.length_map] at lengths
      have codes := argument_code proper bare s.printer.formatIndex
      constructor
      · rintro ⟨a, found, literal, valid, supplied⟩
        rw [found] at codes
        obtain ⟨slot, here, same⟩ := Option.map_eq_some_iff.1 codes.symm
        have member := List.mem_of_getElem? here
        rw [← same] at literal valid supplied
        refine ⟨listed, proper, slot, here, proper.filled bare slot member, literal, _,
          Piece.units_sound (format_whole read written member literal) valid, fun variadic => ?_⟩
        have enough := supplied variadic
        rwa [List.length_drop, lengths, ← List.length_drop] at enough
      · rintro ⟨_, _, slot, here, _, literal, demanded, units, supplied⟩
        rw [Option.mem_def.1 here] at codes
        obtain ⟨a, found, same⟩ := Option.map_eq_some_iff.1 codes
        obtain ⟨valid, counted⟩ := Piece.units_complete units
        refine ⟨a, found, ?_⟩
        rw [same, counted]
        refine ⟨literal, valid, fun variadic => ?_⟩
        rw [List.length_drop, lengths, ← List.length_drop]
        exact supplied variadic

/-- The errors found at a site: that the call is malformed, or what its check finds. -/
def HasErrors (source : Source) (s : Site) : Prop :=
  ∀ c, s.mention = .call c → (c.check source).hasErrors = true

theorem not_hasErrors_iff {source : Source} {s : Site}
    (read : Token.tokenize source.name source.content = .ok s.tokens) :
    ¬ s.HasErrors source ↔ s.IsSafe := by
  constructor
  · intro clean
    obtain ⟨c, mention, passes⟩ : ∃ c, s.mention = .call c ∧
        (c.check source).hasErrors = false := by
      simpa [HasErrors] using clean
    obtain ⟨slots, after, written, listed, proper, rfl⟩ := mention_eq_call_iff.1 mention
    exact ⟨slots, after, written, (hasErrors_call_iff read written listed proper).1 passes⟩
  · rintro ⟨slots, after, written, safe⟩ broken
    have mention := mention_eq_call_iff.2 ⟨slots, after, written, safe.listed, safe.proper, rfl⟩
    have passes := (hasErrors_call_iff read written safe.listed safe.proper).2 safe
    rw [broken _ mention] at passes
    cases passes

end Site

namespace Mention

theorem readCall_malformed {printer : Printer} {name opening : Token} {rest : List Token}
    {d : Diagnostic} (read : readCall printer name opening rest = .malformed d) :
    d.isError = true := by
  rcases readCall_malformed_inversion read with ⟨_, rfl⟩ | ⟨_, rfl⟩
  · rfl
  · rfl

end Mention

namespace Analysis

theorem hasErrors_eq_false_iff {a : Analysis} : a.hasErrors = false ↔ a.errors = [] := by
  simp [hasErrors, errors, Diagnostic.hasErrors, List.filter_eq_nil_iff]

/-- The errors of a file that can be cut into tokens are those at its sites. -/
theorem hasErrors_iff {source : Source} {table : PrinterTable} {tokens : List Token}
    (read : Token.tokenize source.name source.content = .ok tokens) :
    (source.analyze table).hasErrors = true ↔
      ∃ s ∈ Site.ofTokens table tokens, s.HasErrors source := by
  have parts : (source.analyze table).hasErrors =
      (Diagnostic.hasErrors (Mention.diagnostics (Mention.ofTokens table tokens)) ||
        (Mention.calls (Mention.ofTokens table tokens)).any
          fun c => (c.check source).hasErrors) := by
    unfold Source.analyze
    rw [read]
    simp only [hasErrors]
    rw [Diagnostic.hasErrors_sort, Diagnostic.hasErrors_append]
    simp [Diagnostic.hasErrors, Verdict.hasErrors, List.any_flatMap, List.any_map,
      Function.comp_def]
  rw [parts, Mention.diagnostics_eq, Mention.calls_eq, Bool.or_eq_true, Diagnostic.hasErrors,
    List.any_eq_true, List.any_eq_true]
  constructor
  · rintro (⟨d, found, _⟩ | ⟨c, found, fails⟩)
    · obtain ⟨s, member, malformed⟩ := List.mem_filterMap.1 found
      refine ⟨s, member, fun c mention => ?_⟩
      rw [mention] at malformed
      cases malformed
    · obtain ⟨s, member, call⟩ := List.mem_filterMap.1 found
      refine ⟨s, member, fun other mention => ?_⟩
      rw [mention] at call
      cases call
      exact fails
  · rintro ⟨s, member, fails⟩
    have kind := Mention.readCall_isCall s.printer s.name s.opening s.later
    change s.mention.isCall = true at kind
    cases mention : s.mention with
    | value => simp [mention, Mention.isCall] at kind
    | declared => simp [mention, Mention.isCall] at kind
    | call c =>
        refine .inr ⟨c, List.mem_filterMap.2 ⟨s, member, ?_⟩, fails c mention⟩
        rw [mention]
        rfl
    | malformed d =>
        refine .inl ⟨d, List.mem_filterMap.2 ⟨s, member, ?_⟩, Mention.readCall_malformed mention⟩
        rw [mention]
        rfl

/-- The analysis reports no error exactly if the file can be cut into tokens and every call in it is
safe. -/
theorem errors_eq_nil_iff (source : Source) (table : PrinterTable) :
    (source.analyze table).errors = [] ↔
      ∃ tokens, Token.tokenize source.name source.content = .ok tokens ∧
        ∀ s : Site, s.tokens = tokens → s.Tracked table → s.IsSafe := by
  rw [← hasErrors_eq_false_iff]
  cases read : Token.tokenize source.name source.content with
  | error fault =>
      have fails : (source.analyze table).hasErrors = true := by
        unfold Source.analyze
        rw [read]
        rfl
      simp [fails]
  | ok tokens =>
      constructor
      · intro clean
        refine ⟨tokens, rfl, ?_⟩
        rintro s rfl tracked
        refine (Site.not_hasErrors_iff read).1 fun fails => ?_
        have found := (hasErrors_iff read).2 ⟨s, Site.mem_ofTokens_iff.2 ⟨rfl, tracked⟩, fails⟩
        rw [clean] at found
        cases found
      · rintro ⟨_, same, safe⟩
        cases same
        refine Bool.eq_false_iff.2 fun fails => ?_
        obtain ⟨s, member, broken⟩ := (hasErrors_iff read).1 fails
        obtain ⟨rfl, tracked⟩ := Site.mem_ofTokens_iff.1 member
        exact (Site.not_hasErrors_iff read).2 (safe s rfl tracked) broken

end Analysis

end FormatLint
