import FormatLint.Proofs.Call.Placement
import FormatLint.Proofs.Call.Reports
import Mathlib

/-!
When two calls are found to be alike. What is known about a call depends on its tokens only through
the format that they spell, the casts that they begin with, and the places where they stand; places
are compared by a relation that is kept when spans are put together. `Call.check_like` compares what
is said about two calls but for the casts of their arguments, `Call.check_same` all that is said.
-/

namespace FormatLint

theorem forall₂_getElem? {α β : Type} {R : α → β → Prop} {first : List α} {second : List β}
    (like : List.Forall₂ R first second) (index : Nat) :
    Option.Rel R first[index]? second[index]? := by
  induction like generalizing index with
  | nil => exact .none
  | cons here _ ih =>
      cases index with
      | zero => exact .some here
      | succ index => exact ih index

theorem forall₂_exists {α β : Type} {R : α → β → Prop} {first : List α} {second : List β}
    (like : List.Forall₂ R first second) {b : β} (member : b ∈ second) : ∃ a ∈ first, R a b := by
  induction like with
  | nil => cases member
  | cons here _ ih =>
      rcases List.mem_cons.1 member with rfl | later
      · exact ⟨_, List.mem_cons_self, here⟩
      · obtain ⟨a, listed, related⟩ := ih later
        exact ⟨a, List.mem_cons_of_mem _ listed, related⟩

theorem forall₂_head? {α β : Type} {R : α → β → Prop} {first : List α} {second : List β}
    (like : List.Forall₂ R first second) : Option.Rel R first.head? second.head? := by
  cases like with
  | nil => exact .none
  | cons here _ => exact .some here

theorem forall₂_getLast? {α β : Type} {R : α → β → Prop} {first : List α} {second : List β}
    (like : List.Forall₂ R first second) : Option.Rel R first.getLast? second.getLast? := by
  rw [List.getLast?_eq_head?_reverse, List.getLast?_eq_head?_reverse]
  exact forall₂_head? (List.rel_reverse like)

theorem map_eq_of_forall₂ {α β γ : Type} {R : α → β → Prop} {f : α → γ} {g : β → γ}
    (same : ∀ a b, R a b → g b = f a) {first : List α} {second : List β}
    (like : List.Forall₂ R first second) : second.map g = first.map f := by
  induction like with
  | nil => rfl
  | cons here _ ih => rw [List.map_cons, List.map_cons, ih, same _ _ here]

theorem all_eq_of_forall₂ {α β : Type} {R : α → β → Prop} {p : α → Bool} {q : β → Bool}
    (same : ∀ a b, R a b → q b = p a) {first : List α} {second : List β}
    (like : List.Forall₂ R first second) : second.all q = first.all p := by
  have tested := congrArg (List.all · id) (map_eq_of_forall₂ same like)
  simpa only [List.all_map, Function.id_comp] using tested

/-- A relation between the spans of two texts that is kept when spans are put together. -/
structure Places where
  Match : Span → Span → Prop
  through : ∀ {p q p' q' : Span}, Match p p' → Match q q' → Match (p.through q) (p'.through q')

namespace Places

/-- The same places in one text. -/
def same : Places where
  Match p p' := p' = p
  through := by
    rintro p q _ _ rfl rfl
    rfl

/-- The diagnostics say the same at places that match. -/
structure Diagnostics (places : Places) (d d' : Diagnostic) : Prop where
  problem : d'.problem = d.problem
  message : d'.message = d.message
  place : Option.Rel places.Match d.primarySpan? d'.primarySpan?

/-- The formats consist of the same pieces at places that match. -/
structure Formats (places : Places) (f f' : FormatString) : Prop where
  text : f'.text = f.text
  breaks : f'.breaks = f.breaks
  span : places.Match f.span f'.span
  parts : List.Forall₂ (fun p p' => p'.piece = p.piece ∧ p'.start = p.start ∧
    places.Match p.span p'.span) f.parts f'.parts

/-- The directives read the same kind of argument. -/
structure Demands (places : Places) (d d' : Demand) : Prop where
  directive : d'.directive = d.directive
  role : d'.role = d.role
  span : places.Match d.span d'.span

/-- The arguments stand at places that match and spell the same format, if they spell any. -/
structure Arguments (places : Places) (a a' : Argument) : Prop where
  span : places.Match a.span a'.span
  format : Option.Rel places.Formats (FormatString.ofArgument? a) (FormatString.ofArgument? a')

theorem diagnostics_refl (d : Diagnostic) : same.Diagnostics d d := by
  refine ⟨rfl, rfl, ?_⟩
  cases d.primarySpan? with
  | none => exact .none
  | some span => exact .some rfl

theorem arguments_refl (a : Argument) : same.Arguments a a := by
  refine ⟨rfl, ?_⟩
  cases FormatString.ofArgument? a with
  | none => exact .none
  | some f => exact .some ⟨rfl, rfl, rfl, List.forall₂_same.2 fun _ _ => ⟨rfl, rfl, rfl⟩⟩

variable {places : Places}

namespace Formats

variable {f f' : FormatString}

theorem directives (like : places.Formats f f') :
    List.Forall₂ (fun d d' => d'.1 = d.1 ∧ places.Match d.2 d'.2) f.directives f'.directives := by
  refine List.rel_filterMap ?_ like.parts
  rintro p p' ⟨piece, _, span⟩
  unfold PlacedPiece.directive?
  rw [piece]
  split
  · exact .some ⟨rfl, span⟩
  · exact .none

theorem demands (like : places.Formats f f') :
    List.Forall₂ places.Demands f.demands f'.demands := by
  refine List.rel_flatMap like.directives ?_
  rintro ⟨directive, span⟩ ⟨directive', span'⟩ ⟨rfl, place⟩
  have each (role : Role) :
      places.Demands ⟨directive', span, role⟩ ⟨directive', span', role⟩ := ⟨rfl, rfl, place⟩
  refine List.rel_append (List.rel_append ?_ ?_) (.cons (each .value) .nil)
  · dsimp only
    split
    · exact .cons (each .width) .nil
    · exact .nil
  · dsimp only
    split
    · exact .cons (each .precision) .nil
    · exact .nil

theorem diagnostics (like : places.Formats f f') :
    List.Forall₂ places.Diagnostics f.diagnostics f'.diagnostics := by
  refine List.rel_map ?_ (List.rel_filter ?_ like.directives)
  · rintro ⟨directive, span⟩ ⟨directive', span'⟩ ⟨rfl, place⟩
    exact ⟨rfl, rfl, .some place⟩
  · rintro ⟨directive, span⟩ ⟨directive', span'⟩ ⟨rfl, _⟩
    exact Iff.rfl

end Formats

namespace Demands

variable {d d' : Demand}

theorem family? (like : places.Demands d d') : d'.family? = d.family? := by
  simp only [Demand.family?, like.role, like.directive]

theorem cType? (like : places.Demands d d') : d'.cType? = d.cType? := by
  simp only [Demand.cType?, like.role, like.directive]

end Demands

theorem throughAll? {spans spans' : List Span} (like : List.Forall₂ places.Match spans spans') :
    Option.Rel places.Match (Call.throughAll? spans) (Call.throughAll? spans') := by
  have first := forall₂_head? like
  have last := forall₂_getLast? like
  unfold Call.throughAll?
  generalize spans.head? = f at first
  generalize spans'.head? = f' at first
  generalize spans.getLast? = l at last
  generalize spans'.getLast? = l' at last
  cases first with
  | none => exact .none
  | some first =>
      cases last with
      | none => exact .none
      | some last => exact .some (places.through first last)

end Places

/-- A call of the same printer in the other text: its format is the same, and so are the places of
what is said about its argument list. -/
structure Places.Calls (places : Places) (c c' : Call) : Prop where
  printer : c'.printer = c.printer
  list : places.Match (c.opening.span.through c.closing.span)
    (c'.opening.span.through c'.closing.span)
  count : c'.arguments.length = c.arguments.length
  format : Option.Rel places.Arguments c.format? c'.format?
  extra : ∀ a ∈ c.format?, ∀ f ∈ FormatString.ofArgument? a, c.printer.variadic = true →
    List.Forall₂ (fun a a' => places.Match a.span a'.span)
      (c.trailingArguments.drop f.demands.length) (c'.trailingArguments.drop f.demands.length)

theorem Places.Calls.of_arguments {places : Places} {c c' : Call} (printer : c'.printer = c.printer)
    (list : places.Match (c.opening.span.through c.closing.span)
      (c'.opening.span.through c'.closing.span))
    (like : List.Forall₂ places.Arguments c.arguments c'.arguments) : places.Calls c c' := by
  refine ⟨printer, list, like.length_eq.symm, ?_, ?_⟩
  · rw [Call.format?, Call.format?, printer]
    exact forall₂_getElem? like _
  · intro a _ f _ _
    rw [Call.trailingArguments, Call.trailingArguments, printer]
    exact (List.forall₂_drop _ (List.forall₂_drop _ like)).imp fun _ _ argument => argument.span

theorem Places.calls_refl (c : Call) : same.Calls c c :=
  .of_arguments rfl rfl (List.forall₂_same.2 fun a _ => arguments_refl a)

/-- The same is said about two calls, but for the casts of their arguments. -/
structure Places.Verdicts (places : Places) (v v' : Verdict) : Prop where
  printer : v'.call.printer = v.call.printer
  count : v'.call.arguments.length = v.call.arguments.length
  format : Option.Rel places.Formats v.format v'.format
  demands : List.Forall₂ (fun p p' => places.Demands p.demand p'.demand) v.pairs v'.pairs
  remarks : List.Forall₂ places.Diagnostics (v.diagnostics.filter (·.problem ≠ .typeMismatch))
    (v'.diagnostics.filter (·.problem ≠ .typeMismatch))

def Cast.type (c : Cast) : Text × Option Family := (c.spelling, c.family)

def Argument.castType? (a : Argument) : Option (Text × Option Family) := a.cast?.map Cast.type

/-- The same is said about two calls, and their arguments are cast to the same types. -/
structure Places.SameVerdicts (places : Places) (v v' : Verdict) : Prop
    extends places.Verdicts v v' where
  fixed : v'.call.fixedArguments.map Argument.castType? =
    v.call.fixedArguments.map Argument.castType?
  casts : v'.pairs.map (fun p => p.cast.map Cast.type) = v.pairs.map (fun p => p.cast.map Cast.type)
  diagnostics : List.Forall₂ places.Diagnostics v.diagnostics v'.diagnostics

theorem Places.SameVerdicts.pairs {places : Places} {v v' : Verdict}
    (same : places.SameVerdicts v v') :
    List.Forall₂ (fun p p' => places.Demands p.demand p'.demand ∧
      p'.cast.map Cast.type = p.cast.map Cast.type) v.pairs v'.pairs := by
  have demands := same.demands
  have casts := same.casts
  generalize v.pairs = pairs at demands casts
  generalize v'.pairs = pairs' at demands casts
  induction demands with
  | nil => exact .nil
  | cons demand _ ih =>
      obtain ⟨cast, casts⟩ := List.cons.inj casts
      exact .cons ⟨demand, cast⟩ (ih casts)

theorem Pair.family?_same {p p' : Pair} (cast : p'.cast.map Cast.type = p.cast.map Cast.type) :
    p'.family? = p.family? := by
  have types := congrArg (Option.bind · Prod.snd) cast
  simpa [family?, Cast.type, Option.bind_map, Function.comp_def] using types

namespace Call

open Argument (castType?)

variable {places : Places} {c c' : Call} {source source' : Source}

theorem pair_like {demands demands' : List Demand} {arguments arguments' : List Argument}
    (demanded : List.Forall₂ places.Demands demands demands')
    (count : arguments'.length = arguments.length) :
    List.Forall₂ (fun p p' => places.Demands p.demand p'.demand) (pair demands arguments)
      (pair demands' arguments') := by
  induction arguments generalizing arguments' demands demands' with
  | nil =>
      rw [List.eq_nil_of_length_eq_zero count]
      exact .nil
  | cons a arguments ih =>
      obtain ⟨a', arguments', rfl⟩ := List.exists_cons_of_length_eq_add_one count
      cases demanded with
      | nil => exact .nil
      | cons demand demanded => exact .cons demand (ih demanded (Nat.succ.inj count))

/-- The arguments in excess are the same, and so are the demands. -/
theorem countDiagnostics_like (c c' : Call) (f f' : FormatString) {demands demands' : List Demand}
    {arguments arguments' : List Argument}
    (demanded : List.Forall₂ places.Demands demands demands')
    (count : arguments'.length = arguments.length)
    (extra : List.Forall₂ (fun a a' => places.Match a.span a'.span)
      (arguments.drop demands.length) (arguments'.drop demands.length)) :
    List.Forall₂ places.Diagnostics (c.countDiagnostics f demands arguments)
      (c'.countDiagnostics f' demands' arguments') := by
  have unmet : Option.Rel places.Match
      (throughAll? ((demands.drop arguments.length).map (·.span)))
      (throughAll? ((demands'.drop arguments'.length).map (·.span))) := by
    refine Places.throughAll? (List.rel_map (R := places.Demands) (fun _ _ like => like.span) ?_)
    rw [count]
    exact List.forall₂_drop _ demanded
  have given : Option.Rel places.Match
      (throughAll? ((arguments.drop demands.length).map (·.span)))
      (throughAll? ((arguments'.drop demands'.length).map (·.span))) := by
    rw [← demanded.length_eq]
    exact Places.throughAll? (List.rel_map (R := fun a a' => places.Match a.span a'.span)
      (fun _ _ => id) extra)
  have counted : (demands'.drop arguments'.length).length =
      (demands.drop arguments.length).length := by
    rw [List.length_drop, List.length_drop, count, demanded.length_eq]
  have spare : (arguments'.drop demands'.length).length =
      (arguments.drop demands.length).length := by
    rw [List.length_drop, List.length_drop, count, demanded.length_eq]
  unfold countDiagnostics
  dsimp only
  rw [counted, spare]
  generalize throughAll? ((demands.drop _).map (·.span)) = directives at unmet
  generalize throughAll? ((demands'.drop _).map (·.span)) = directives' at unmet
  generalize throughAll? ((arguments.drop _).map (·.span)) = others at given
  generalize throughAll? ((arguments'.drop _).map (·.span)) = others' at given
  cases unmet with
  | some place => exact .cons ⟨rfl, rfl, .some place⟩ .nil
  | none =>
      cases given with
      | some place => exact .cons ⟨rfl, rfl, .some place⟩ .nil
      | none => exact .nil

theorem remarks_of_problem {ds : List Diagnostic} (other : ∀ d ∈ ds, d.problem ≠ .typeMismatch) :
    ds.filter (·.problem ≠ .typeMismatch) = ds :=
  List.filter_eq_self.2 fun d member => by simpa using other d member

theorem mismatch_problem {p : Pair} {d : Diagnostic} (found : p.diagnostic? = some d) :
    d.problem = .typeMismatch := by
  obtain ⟨_, _, _, _, _, _, _, rfl⟩ := Pair.diagnostic?_inversion found
  rfl

theorem format_problem {f : FormatString} : ∀ d ∈ f.diagnostics, d.problem = .invalidDirective := by
  intro d member
  obtain ⟨directive, _, rfl⟩ := List.mem_map.1 member
  rfl

theorem count_problem {f : FormatString} {demands : List Demand} {arguments : List Argument} :
    ∀ d ∈ c.countDiagnostics f demands arguments, d.problem ≠ .typeMismatch := by
  intro d member
  rcases mem_countDiagnostics member with ⟨_, _, _, rfl⟩ | ⟨_, _, rfl⟩
  · exact nofun
  · exact nofun

theorem remarks_checked {front back : List Diagnostic} {pairs : List Pair}
    (before : ∀ d ∈ front, d.problem ≠ .typeMismatch)
    (behind : ∀ d ∈ back, d.problem ≠ .typeMismatch) :
    (front ++ pairs.filterMap Pair.diagnostic? ++ back).filter (·.problem ≠ .typeMismatch) =
      front ++ back := by
  rw [List.filter_append, List.filter_append, remarks_of_problem before, remarks_of_problem behind,
    List.filter_eq_nil_iff.2, List.append_nil]
  intro d member
  obtain ⟨p, _, found⟩ := List.mem_filterMap.1 member
  simp [mismatch_problem found]

theorem pair_casts (demands : List Demand) (arguments : List Argument) :
    (pair demands arguments).map (fun p => p.cast.map Cast.type) =
      (arguments.map castType?).take demands.length := by
  induction arguments generalizing demands with
  | nil => simp [pair]
  | cons a arguments ih =>
      cases demands with
      | nil => rfl
      | cons d demands =>
          rw [List.map_cons, List.length_cons, List.take_succ_cons, ← ih]
          rfl

theorem mismatch_like {p p' : Pair} (demand : places.Demands p.demand p'.demand)
    (cast : p'.cast.map Cast.type = p.cast.map Cast.type) :
    Option.Rel places.Diagnostics p.diagnostic? p'.diagnostic? := by
  unfold Pair.diagnostic?
  rw [demand.family?, demand.cType?, demand.directive]
  cases given : p.cast with
  | none =>
      rw [given] at cast
      rw [Option.map_eq_none_iff.1 cast]
      cases p.demand.family? <;> exact .none
  | some type =>
      rw [given, Option.map_some] at cast
      obtain ⟨type', given', same⟩ := Option.map_eq_some_iff.1 cast
      obtain ⟨spelling, family⟩ := Prod.mk.inj same
      rw [given']
      cases p.demand.family? with
      | none => exact .none
      | some expected =>
          dsimp only
          rw [family]
          cases type.family with
          | none => exact .none
          | some given =>
              dsimp only
              split
              · exact .none
              · exact .some ⟨rfl, rfl, .some demand.span⟩

theorem forall₂_diagnostic? {pairs pairs' : List Pair}
    (demanded : List.Forall₂ (fun p p' => places.Demands p.demand p'.demand) pairs pairs')
    (casts : pairs'.map (fun p => p.cast.map Cast.type) = pairs.map (fun p => p.cast.map Cast.type)) :
    List.Forall₂ places.Diagnostics (pairs.filterMap Pair.diagnostic?)
      (pairs'.filterMap Pair.diagnostic?) := by
  refine List.rel_filterMap (R := fun p p' => places.Demands p.demand p'.demand ∧
    p'.cast.map Cast.type = p.cast.map Cast.type) (fun p p' like => mismatch_like like.1 like.2) ?_
  induction demanded with
  | nil => exact .nil
  | cons demand _ ih =>
      obtain ⟨cast, casts⟩ := List.cons.inj casts
      exact .cons ⟨demand, cast⟩ (ih casts)

/-- How the diagnostics of two verdicts are made up: remarks, then those about casts, then remarks. -/
structure Layout (places : Places) (c c' : Call) (v v' : Verdict) (front front' back back' :
    List Diagnostic) (n : Nat) : Prop where
  format : Option.Rel places.Formats v.format v'.format
  demands : List.Forall₂ (fun p p' => places.Demands p.demand p'.demand) v.pairs v'.pairs
  diagnostics : v.diagnostics = front ++ v.pairs.filterMap Pair.diagnostic? ++ back
  diagnostics' : v'.diagnostics = front' ++ v'.pairs.filterMap Pair.diagnostic? ++ back'
  before : List.Forall₂ places.Diagnostics front front'
  behind : List.Forall₂ places.Diagnostics back back'
  remarks : ∀ d ∈ front ++ front' ++ (back ++ back'), d.problem ≠ .typeMismatch
  casts : v.pairs.map (fun p => p.cast.map Cast.type) = (c.trailingArguments.map castType?).take n
  casts' : v'.pairs.map (fun p => p.cast.map Cast.type) = (c'.trailingArguments.map castType?).take n

theorem check_layout (source source' : Source) (like : places.Calls c c') :
    ∃ front front' back back' n,
      Layout places c c' (c.check source) (c'.check source') front front' back back' n := by
  obtain ⟨printer, list, count, format, extra⟩ := like
  have trailing : c'.trailingArguments.length = c.trailingArguments.length := by
    simp only [trailingArguments, List.length_drop, count, printer]
  unfold check
  generalize place : c.format? = found at format extra
  generalize place' : c'.format? = found' at format
  cases format with
  | none =>
      refine ⟨[_], [_], [], [], 0, .none, .nil, rfl, rfl, .cons ⟨rfl, ?_, .some list⟩ .nil, .nil,
        by simp [Diagnostic.missingArguments], rfl, rfl⟩
      simp only [Diagnostic.missingArguments, printer]
  | @some a a' argument =>
      have span := argument.span
      have spelled := argument.format
      replace extra := extra a rfl
      dsimp only
      generalize FormatString.ofArgument? a = f at spelled extra
      generalize FormatString.ofArgument? a' = f' at spelled
      cases spelled with
      | none =>
          exact ⟨[_], [_], [], [], 0, .none, .nil, rfl, rfl, .cons ⟨rfl, rfl, .some span⟩ .nil, .nil,
            by simp [Diagnostic.nonLiteralFormat], rfl, rfl⟩
      | @some f f' spelled =>
          dsimp only
          rw [printer]
          have pieces := spelled.diagnostics
          split
          · rename_i variadic
            have counted := countDiagnostics_like c c' f f'
              spelled.demands trailing (extra f rfl variadic)
            refine ⟨_, _, _, _, f.demands.length, .some spelled, pair_like spelled.demands trailing,
              rfl, rfl, pieces, counted, ?_, pair_casts _ _, ?_⟩
            · intro d member
              simp only [List.mem_append] at member
              rcases member with (member | member) | member | member
              · simp [format_problem d member]
              · simp [format_problem d member]
              · exact count_problem d member
              · exact count_problem d member
            · rw [spelled.demands.length_eq]
              exact pair_casts _ _
          · refine ⟨_, _, [], [], 0, .some spelled, .nil, by simp, by simp, pieces, .nil, ?_, rfl, rfl⟩
            intro d member
            simp only [List.append_nil, List.mem_append] at member
            rcases member with member | member <;> simp [format_problem d member]

/-- Calls with like formats and as many arguments get the same verdict, but for the casts of the
arguments that are paired. -/
theorem check_like (like : places.Calls c c') :
    places.Verdicts (c.check source) (c'.check source') := by
  obtain ⟨front, front', back, back', n, layout⟩ :=
    check_layout source source' like
  refine ⟨by rw [check_call, check_call, like.printer], by rw [check_call, check_call, like.count],
    layout.format, layout.demands, ?_⟩
  have remarks := layout.remarks
  simp only [List.mem_append, or_imp, forall_and] at remarks
  obtain ⟨⟨before, before'⟩, behind, behind'⟩ := remarks
  rw [layout.diagnostics, layout.diagnostics', remarks_checked before behind,
    remarks_checked before' behind']
  exact List.rel_append layout.before layout.behind

/-- Calls whose arguments are alike, their casts included, get the same verdict. -/
theorem check_same (like : places.Calls c c')
    (casts : c'.arguments.map castType? = c.arguments.map castType?) :
    places.SameVerdicts (c.check source) (c'.check source') := by
  obtain ⟨front, front', back, back', n, layout⟩ :=
    check_layout source source' like
  have paired : (c'.check source').pairs.map (fun p => p.cast.map Cast.type) =
      (c.check source).pairs.map (fun p => p.cast.map Cast.type) := by
    rw [layout.casts, layout.casts', trailingArguments, trailingArguments, like.printer,
      List.map_drop, List.map_drop, casts]
  refine ⟨check_like like, ?_, paired, ?_⟩
  · rw [check_call, check_call, fixedArguments, fixedArguments, like.printer, List.map_take,
      List.map_take, casts]
  · rw [layout.diagnostics, layout.diagnostics']
    exact List.rel_append (List.rel_append layout.before (forall₂_diagnostic? layout.demands paired))
      layout.behind

end Call

theorem forall₂_trans {α β γ : Type} {R : α → β → Prop} {S : β → γ → Prop} {T : α → γ → Prop}
    (step : ∀ x y z, R x y → S y z → T x z) {first : List α} {second : List β} {third : List γ}
    (front : List.Forall₂ R first second) (back : List.Forall₂ S second third) :
    List.Forall₂ T first third := by
  induction front generalizing third with
  | nil =>
      cases back
      exact .nil
  | cons here _ ih =>
      cases back with
      | cons there back => exact .cons (step _ _ _ here there) (ih back)

theorem optionRel_trans {α β γ : Type} {R : α → β → Prop} {S : β → γ → Prop} {T : α → γ → Prop}
    (step : ∀ x y z, R x y → S y z → T x z) {first : Option α} {second : Option β}
    {third : Option γ} (front : Option.Rel R first second) (back : Option.Rel S second third) :
    Option.Rel T first third := by
  cases front with
  | none =>
      cases back
      exact .none
  | some here =>
      cases back with
      | some there => exact .some (step _ _ _ here there)

namespace Places

/-- Matching by the first and then by the second relation is matching by the third one. -/
def Composes (first second whole : Places) : Prop :=
  ∀ ⦃p q r : Span⦄, first.Match p q → second.Match q r → whole.Match p r

variable {places : Places} {P Q R : Places}

theorem same_composes (places : Places) : Composes same places places := by
  rintro p _ r rfl matched
  exact matched

theorem composes_same (places : Places) : Composes places same places := by
  rintro p q _ matched rfl
  exact matched

theorem Diagnostics.trans (places : Composes P Q R) {d d' d'' : Diagnostic}
    (first : P.Diagnostics d d') (second : Q.Diagnostics d' d'') : R.Diagnostics d d'' :=
  ⟨second.problem.trans first.problem, second.message.trans first.message, by
    refine optionRel_trans ?_ first.place second.place
    exact fun _ _ _ here there => places here there⟩

theorem Formats.trans (places : Composes P Q R) {f f' f'' : FormatString}
    (first : P.Formats f f') (second : Q.Formats f' f'') : R.Formats f f'' := by
  refine ⟨second.text.trans first.text, second.breaks.trans first.breaks,
    places first.span second.span, forall₂_trans ?_ first.parts second.parts⟩
  rintro p p' p'' ⟨piece, start, span⟩ ⟨piece', start', span'⟩
  exact ⟨piece'.trans piece, start'.trans start, places span span'⟩

theorem Demands.trans (places : Composes P Q R) {d d' d'' : Demand} (first : P.Demands d d')
    (second : Q.Demands d' d'') : R.Demands d d'' :=
  ⟨second.directive.trans first.directive, second.role.trans first.role,
    places first.span second.span⟩

theorem Diagnostics.trans_list (places : Composes P Q R) {ds ds' ds'' : List Diagnostic}
    (first : List.Forall₂ P.Diagnostics ds ds') (second : List.Forall₂ Q.Diagnostics ds' ds'') :
    List.Forall₂ R.Diagnostics ds ds'' := by
  refine forall₂_trans ?_ first second
  exact fun _ _ _ => Diagnostics.trans places

theorem Verdicts.trans (places : Composes P Q R) {v v' v'' : Verdict} (first : P.Verdicts v v')
    (second : Q.Verdicts v' v'') : R.Verdicts v v'' := by
  refine ⟨second.printer.trans first.printer, second.count.trans first.count, ?_, ?_,
    Diagnostics.trans_list places first.remarks second.remarks⟩
  · refine optionRel_trans ?_ first.format second.format
    exact fun _ _ _ => Formats.trans places
  · refine forall₂_trans ?_ first.demands second.demands
    exact fun _ _ _ => Demands.trans places

theorem SameVerdicts.trans (places : Composes P Q R) {v v' v'' : Verdict}
    (first : P.SameVerdicts v v') (second : Q.SameVerdicts v' v'') : R.SameVerdicts v v'' :=
  ⟨first.toVerdicts.trans places second.toVerdicts, second.fixed.trans first.fixed,
    second.casts.trans first.casts,
    Diagnostics.trans_list places first.diagnostics second.diagnostics⟩

/-- The mentions play the same part, and calls are related as given. -/
inductive Mentions (places : Places) (R : Call → Call → Prop) : Mention → Mention → Prop
  | value {name name' : Token} : Mentions places R (.value name) (.value name')
  | declared {name name' : Token} : Mentions places R (.declared name) (.declared name')
  | call {c c' : Call} (related : R c c') : Mentions places R (.call c) (.call c')
  | malformed {d d' : Diagnostic} (like : places.Diagnostics d d') :
      Mentions places R (.malformed d) (.malformed d')

theorem Mentions.trans (places : Composes P Q R) {S T U : Call → Call → Prop}
    (calls : ∀ c c' c'', S c c' → T c' c'' → U c c'') {m m' m'' : Mention}
    (first : P.Mentions S m m') (second : Q.Mentions T m' m'') : R.Mentions U m m'' := by
  cases first with
  | value =>
      cases second
      exact .value
  | declared =>
      cases second
      exact .declared
  | call here =>
      cases second with
      | call there => exact .call (calls _ _ _ here there)
  | malformed here =>
      cases second with
      | malformed there => exact .malformed (here.trans places there)

theorem mentions_trans (places : Composes P Q R) {S T U : Call → Call → Prop}
    (calls : ∀ c c' c'', S c c' → T c' c'' → U c c'') {ms ms' ms'' : List Mention}
    (first : List.Forall₂ (P.Mentions S) ms ms') (second : List.Forall₂ (Q.Mentions T) ms' ms'') :
    List.Forall₂ (R.Mentions U) ms ms'' := by
  refine forall₂_trans ?_ first second
  exact fun _ _ _ => Mentions.trans places calls

theorem mentions_refl {S : Call → Call → Prop} {mentions : List Mention}
    (calls : ∀ c, .call c ∈ mentions → S c c) :
    List.Forall₂ (same.Mentions S) mentions mentions := by
  refine List.forall₂_same.2 fun m member => ?_
  cases m with
  | value => exact .value
  | declared => exact .declared
  | call c => exact .call (calls c member)
  | malformed d => exact .malformed (diagnostics_refl d)

theorem mentions_imp {S T : Call → Call → Prop} {ms ms' : List Mention}
    (calls : ∀ c c', S c c' → T c c') (like : List.Forall₂ (places.Mentions S) ms ms') :
    List.Forall₂ (places.Mentions T) ms ms' := by
  refine like.imp ?_
  rintro m m' (_ | _ | related | same)
  · exact .value
  · exact .declared
  · exact .call (calls _ _ related)
  · exact .malformed same

variable {S : Call → Call → Prop} {mentions mentions' : List Mention}

theorem mentions_calls (like : List.Forall₂ (Mentions places S) mentions mentions') :
    List.Forall₂ S (Mention.calls mentions) (Mention.calls mentions') := by
  refine List.rel_filterMap ?_ like
  rintro m m' (_ | _ | related | _)
  · exact .none
  · exact .none
  · exact .some related
  · exact .none

theorem mentions_diagnostics (like : List.Forall₂ (Mentions places S) mentions mentions') :
    List.Forall₂ places.Diagnostics (Mention.diagnostics mentions)
      (Mention.diagnostics mentions') := by
  refine List.rel_filterMap ?_ like
  rintro m m' (_ | _ | _ | like)
  · exact .none
  · exact .none
  · exact .none
  · exact .some like

end Places

end FormatLint
