import FormatLint.Proofs.Guarded.Formats
import FormatLint.Proofs.Revision.Eligible

/-!
Checking a call never fails, and everything that is said about it can be shown: `Guarded.check_ok`.
-/

namespace FormatLint

namespace Guarded

variable {s : Source} {tokens : List Token} {c : Call}

theorem cast?_parentheses {a : Argument} {cast : Cast} (found : a.cast? = some cast) :
    ∃ opening rest closing, a.code = opening :: rest ∧
      rest[(rest.takeWhile Cast.isTypeWord).length]? = some closing ∧
        cast.span = opening.span.through closing.span := by
  obtain ⟨opening, type, closing, operand, code, checked, rfl⟩ := Argument.cast?_inversion.1 found
  refine ⟨opening, _, closing, code, ?_, rfl⟩
  rw [(Cast.words_of_closed checked.words checked.closes operand).1,
    List.getElem?_append_right (Nat.le_refl _), Nat.sub_self]
  rfl

theorem cast?_ok {a : Argument} (row : Token.InRow a.tokens) :
    cast? a = .ok a.cast? ∧ ∀ cast ∈ a.cast?, cast.span.start.offset ≤ cast.span.stop.offset := by
  rw [cast?]
  cases found : a.cast? with
  | none =>
      refine ⟨?_, by simp⟩
      cases a.code <;> rfl
  | some cast =>
      obtain ⟨opening, rest, closing, code, place, span⟩ := cast?_parentheses found
      have part : Token.InRow (opening :: rest) := by
        rw [← code]
        exact row.sublist List.filter_sublist
      have leads := part.cons_leads closing (List.mem_cons_of_mem _ (List.mem_of_getElem? place))
      rw [code]
      dsimp only
      rw [get_ok place, ok_bind, join_ok leads, ok_bind, ← span]
      refine ⟨rfl, fun other same => ?_⟩
      cases same
      rw [span]
      exact leads.2

theorem demands_row {f : FormatString} (directives : Span.Row (f.directives.map (·.2))) :
    Span.Row (f.demands.map (·.span)) := by
  have same (directive : Directive) (span : Span) :
      ∀ d ∈ Demand.ofDirective directive span, d.span = span := by
    intro d member
    simp only [Demand.ofDirective, List.mem_append, List.mem_ite_nil_right, List.mem_singleton] at member
    rcases member with (⟨_, rfl⟩ | ⟨_, rfl⟩) | rfl <;> rfl
  have forward {d : Directive × Span} (member : d ∈ f.directives) : d.2.Leads d.2 :=
    directives.forward _ (List.mem_map_of_mem member)
  refine ⟨fun s member => ?_, List.pairwise_map.2 (List.pairwise_flatMap.2 ⟨fun d member => ?_, ?_⟩)⟩
  · obtain ⟨demand, listed, rfl⟩ := List.mem_map.1 member
    obtain ⟨d, member, asked⟩ := List.mem_flatMap.1 listed
    rw [same d.1 d.2 demand asked]
    exact forward member
  · refine List.pairwise_of_forall_mem_list fun a first b second => ?_
    rw [same d.1 d.2 a first, same d.1 d.2 b second]
    exact forward member
  · refine (List.pairwise_map.1 directives.ordered).imp fun {d e} leads a first b second => ?_
    rw [same d.1 d.2 a first, same e.1 e.2 b second]
    exact leads

theorem exists_throughAll? {spans : List Span} (row : Span.Row spans) (present : spans ≠ []) :
    ∃ s, Call.throughAll? spans = some s ∧ through spans = .ok s ∧ s.start.offset ≤ s.stop.offset := by
  obtain ⟨first, later, rfl⟩ := List.exists_cons_of_ne_nil present
  have ends : (first :: later).getLast? = some ((first :: later).getLast present) :=
    List.getLast?_eq_some_getLast present
  have all : Call.throughAll? (first :: later) =
      some (first.through ((first :: later).getLast present)) := by
    rw [Call.throughAll?, ends]
    rfl
  exact ⟨_, all, through_ok row all, (row.cons_leads _ (List.getLast_mem present)).2⟩

theorem argumentsSpan_ok (stands : c.Stands) {arguments : List Argument}
    (among : arguments.Sublist c.arguments) :
    argumentsSpan c arguments =
        .ok ((Call.throughAll? (arguments.map (·.span))).getD c.closing.span) ∧
      ((Call.throughAll? (arguments.map (·.span))).getD c.closing.span).start.offset ≤
        ((Call.throughAll? (arguments.map (·.span))).getD c.closing.span).stop.offset := by
  rw [argumentsSpan]
  by_cases empty : arguments = []
  · rw [if_pos empty, empty]
    exact ⟨rfl, stands.closing.2⟩
  · have each : arguments.mapM argumentSpan = .ok (arguments.map (·.span)) :=
      mapM_ok fun a member => argumentSpan_ok (stands.tokens a (among.subset member))
    obtain ⟨span, all, joined, forward⟩ := exists_throughAll?
      (stands.arguments.sublist (among.map _)) (by simpa using empty)
    rw [if_neg empty, each, ok_bind, joined, all]
    exact ⟨rfl, forward⟩

theorem countDiagnostics_ok (stands : c.Stands) {f : FormatString}
    (format : f.span.start.offset ≤ f.span.stop.offset) {demands : List Demand}
    (row : Span.Row (demands.map (·.span))) {arguments : List Argument}
    (among : arguments.Sublist c.arguments) :
    countDiagnostics c f demands arguments = .ok (c.countDiagnostics f demands arguments) ∧
      ∀ d ∈ c.countDiagnostics f demands arguments, d.Forward := by
  rw [countDiagnostics, Call.countDiagnostics]
  by_cases fewer : arguments.length < demands.length
  · have unmet : (demands.drop arguments.length).map (·.span) ≠ [] := by
      simp only [ne_eq, List.map_eq_nil_iff, List.drop_eq_nil_iff]
      omega
    obtain ⟨directives, all, joined, forward⟩ :=
      exists_throughAll? (row.sublist ((List.drop_sublist _ _).map _)) unmet
    obtain ⟨given, order⟩ := argumentsSpan_ok stands among
    rw [if_pos fewer]
    dsimp only
    rw [joined, all, ok_bind, given]
    refine ⟨rfl, fun d member l label => ?_⟩
    rw [List.mem_singleton.1 member] at label
    simp only [Diagnostic.excessDirectives, List.mem_cons, List.not_mem_nil, or_false] at label
    rcases label with rfl | rfl
    · exact forward
    · exact order
  · have met : demands.drop arguments.length = [] := List.drop_eq_nil_iff.2 (Nat.le_of_not_lt fewer)
    have through : Call.throughAll? (([] : List Demand).map (·.span)) = none := rfl
    rw [if_neg fewer, met, through]
    by_cases more : demands.length < arguments.length
    · have extra : (arguments.drop demands.length).map (·.span) ≠ [] := by
        simp only [ne_eq, List.map_eq_nil_iff, List.drop_eq_nil_iff]
        omega
      have part := (List.drop_sublist demands.length arguments).trans among
      obtain ⟨span, all, _, forward⟩ := exists_throughAll?
        (stands.arguments.sublist (part.map _)) extra
      obtain ⟨joined, _⟩ := argumentsSpan_ok stands part
      rw [if_pos more, all]
      dsimp only
      rw [joined, all]
      refine ⟨rfl, fun d member l label => ?_⟩
      rw [List.mem_singleton.1 member] at label
      simp only [Diagnostic.excessArguments, List.mem_cons, List.not_mem_nil, or_false] at label
      rcases label with rfl | rfl
      · exact format
      · exact forward
    · have extra : arguments.drop demands.length = [] :=
        List.drop_eq_nil_iff.2 (Nat.le_of_not_lt more)
      rw [if_neg more, extra]
      exact ⟨rfl, by simp [Call.throughAll?]⟩

theorem forward_of_directives {f : FormatString} (directives : Span.Row (f.directives.map (·.2))) :
    ∀ d ∈ f.diagnostics, d.Forward := by
  intro d listed l label
  obtain ⟨directive, asked, rfl⟩ := List.mem_map.1 listed
  rw [List.mem_singleton.1 label]
  exact (directives.forward _ (List.mem_map_of_mem (List.mem_of_mem_filter asked))).2

/-- A pair is shown by its directive and its cast. -/
theorem forward_of_pair {p : Pair} {d : Diagnostic} (found : p.diagnostic? = some d)
    (demand : p.demand.span.start.offset ≤ p.demand.span.stop.offset)
    (cast : ∀ cast ∈ p.cast, cast.span.start.offset ≤ cast.span.stop.offset) : d.Forward := by
  obtain ⟨_, given, _, _, known, _, _, rfl⟩ := Pair.diagnostic?_inversion found
  intro l label
  simp only [Diagnostic.typeMismatch, List.mem_cons, List.not_mem_nil, or_false] at label
  rcases label with rfl | rfl
  · exact demand
  · exact cast given known

theorem pair_ok (stands : c.Stands) {demands : List Demand}
    (row : Span.Row (demands.map (·.span))) {arguments : List Argument}
    (among : arguments.Sublist c.arguments) :
    ((arguments.zip demands).mapM fun (argument, demand) => do
      let cast ← cast? argument
      return (⟨argument, demand, cast⟩ : Pair)) = .ok (Call.pair demands arguments) ∧
      ∀ d ∈ (Call.pair demands arguments).filterMap Pair.diagnostic?, d.Forward := by
  have cast {argument : Argument} {demand : Demand} (member : (argument, demand) ∈ arguments.zip demands) :=
    cast?_ok (stands.tokens argument (among.subset (List.of_mem_zip member).1))
  refine ⟨mapM_ok fun item member => ?_, fun d member => ?_⟩
  · dsimp only
    rw [(cast member).1]
    rfl
  · obtain ⟨pair, listed, found⟩ := List.mem_filterMap.1 member
    obtain ⟨item, inside, rfl⟩ := List.mem_map.1 listed
    refine forward_of_pair found ?_ (cast inside).2
    exact (row.forward _ (List.mem_map_of_mem (List.of_mem_zip inside).2)).2

/-- A call of a file can be checked, and what is said about it can be shown. -/
theorem check_ok (read : Token.tokenize s.name s.content = .ok tokens) (stands : c.Stands)
    (inside : ∀ a ∈ c.arguments, a.tokens ⊆ tokens) :
    check s c = .ok (c.check s) ∧ ∀ d ∈ (c.check s).diagnostics, d.Forward := by
  have ends := List.pairwise_cons.1 stands.ends
  have whole : c.name.span.Leads c.closing.span := ends.1 _ (by simp)
  have list : c.opening.span.Leads c.closing.span := List.rel_of_pairwise_cons ends.2 (by simp)
  rw [check, join_ok whole, ok_bind, Call.check]
  cases place : c.format? with
  | none =>
      dsimp only
      rw [join_ok list]
      refine ⟨rfl, fun d member l label => ?_⟩
      rw [List.mem_singleton.1 member] at label
      rw [List.mem_singleton.1 label]
      exact list.2
  | some argument =>
      have member : argument ∈ c.arguments := List.mem_of_getElem? place
      have row := stands.tokens argument member
      dsimp only
      cases spelled : FormatString.ofArgument? argument with
      | none =>
          rw [FormatString.ofArgument?_eq_none_iff.1 spelled, argumentSpan_ok row]
          refine ⟨rfl, fun d member l label => ?_⟩
          rw [List.mem_singleton.1 member] at label
          rw [List.mem_singleton.1 label]
          exact row.argument.2
      | some f =>
          obtain ⟨literal, made, span, directives⟩ := format_ok read (inside argument member) row spelled
          have invalid := forward_of_directives directives
          rw [literal, if_pos rfl, made, ok_bind]
          cases c.printer.variadic with
          | false => exact ⟨rfl, invalid⟩
          | true =>
              have demands := demands_row directives
              have trailing : c.trailingArguments.Sublist c.arguments := List.drop_sublist _ _
              obtain ⟨pairs, mismatches⟩ := pair_ok stands demands trailing
              obtain ⟨counted, counts⟩ := countDiagnostics_ok stands span demands trailing
              dsimp only
              rw [if_pos rfl, if_pos rfl, pairs, ok_bind, counted]
              refine ⟨rfl, fun d listed => ?_⟩
              rcases List.mem_append.1 listed with listed | listed
              · rcases List.mem_append.1 listed with listed | listed
                · exact invalid d listed
                · exact mismatches d listed
              · exact counts d listed

end Guarded

end FormatLint
