import FormatLint.Proofs.Analysis.Errors
import FormatLint.Proofs.Analysis.Sorting
import FormatLint.Proofs.Revision.CastStages

/-!
Writing out the casts changes nothing that is said about a file, but for casts that disagree with
their directives; none of those is new. `Analysis.typecast_preserves` says so of all calls and
diagnostics.
-/

namespace FormatLint

/-- A type of another family than the demanded one is written in front of the argument. -/
def Pair.Misfits (p : Pair) : Prop :=
  ∃ cast given expected, p.argument.written? = some cast ∧ cast.family = some given ∧
    p.demand.family? = some expected ∧ given ≠ expected

theorem Pair.misfits_of_diagnostic? {p : Pair} (known : p.cast = p.argument.cast?)
    (reported : p.diagnostic?.isSome = true) : p.Misfits := by
  obtain ⟨d, reported⟩ := Option.isSome_iff_exists.1 reported
  obtain ⟨expected, cast, given, demanded, found, family, differ, _⟩ := diagnostic?_inversion reported
  exact ⟨cast, given, expected, Argument.written?_of_cast? (known ▸ found), family, demanded, differ⟩

theorem Demand.family?_eq_none {d : Demand} (untyped : d.cType? = none) : d.family? = none := by
  unfold cType? Directive.cType? at untyped
  unfold family? Directive.family?
  split at untyped
  · simpa using untyped
  · cases untyped

namespace Call

variable {source : Source} {o : Nat}

/-- A pair of the revised call that disagrees did so before. -/
def Agrees (p p' : Pair) : Prop :=
  p'.cast = p'.argument.cast? ∧ (p'.Misfits → p.diagnostic?.isSome = true)

theorem recast_agrees (c : Call) (source source' : Source) :
    List.Forall₂ Agrees (c.check source).pairs ((c.recast o source).check source').pairs := by
  refine (recast_pairs c).imp ?_
  rintro p p' ⟨demand, known, argument, known'⟩
  refine ⟨known', ?_⟩
  rintro ⟨cast, given, expected, written, family, demanded, differ⟩
  rw [demand] at demanded
  rw [argument, Pair.castType?] at written
  split at written
  · rename_i explicit
    obtain ⟨g, found⟩ := Option.isSome_iff_exists.1 explicit
    obtain ⟨cast', made, family'⟩ := Option.bind_eq_some_iff.1 found
    have same := Argument.written?_of_cast? (known ▸ made)
    replace written : p.argument.written? = some cast := written
    rw [written] at same
    cases same
    unfold Pair.diagnostic?
    simp [demanded, made, family, differ]
  · cases typed : p.demand.cType? with
    | none =>
        rw [Demand.family?_eq_none typed] at demanded
        cases demanded
    | some cType =>
        obtain ⟨plain, same, _⟩ := CType.demand_plain typed
        obtain ⟨cast', written', _, family'⟩ :=
          Argument.written?_castTo (o := o) (a := p.argument) plain
        rw [typed] at written
        replace written : (p.argument.castTo o cType).written? = some cast := written
        rw [written'] at written
        cases written
        rw [family', ← same, demanded] at family
        exact absurd (Option.some.inj family).symm differ

theorem forall₂_pairs {places : Places} {P : Argument → Argument → Prop} {c c' : Call}
    {source source' : Source} (like : places.Verdicts (c.check source) (c'.check source'))
    (arguments : List.Forall₂ P c.trailingArguments c'.trailingArguments) :
    List.Forall₂ (fun p p' => places.Demands p.demand p'.demand ∧ P p.argument p'.argument ∧
      p.cast = p.argument.cast? ∧ p'.cast = p'.argument.cast?)
      (c.check source).pairs (c'.check source').pairs := by
  have demanded := like.demands
  obtain ⟨demands, pairs⟩ := check_pair c source
  obtain ⟨demands', pairs'⟩ := check_pair c' source'
  rw [pairs, pairs'] at demanded ⊢
  clear like pairs pairs'
  generalize c.trailingArguments = front at arguments demanded
  generalize c'.trailingArguments = back at arguments demanded
  induction arguments generalizing demands demands' with
  | nil => exact .nil
  | cons argument _ ih =>
      cases demands with
      | nil =>
          cases demands' with
          | nil => exact .nil
          | cons => cases demanded
      | cons d demands =>
          cases demands' with
          | nil => cases demanded
          | cons d' demands' =>
              cases demanded with
              | cons demand demanded =>
                  exact .cons ⟨demand, argument, rfl, rfl⟩ (ih demands demands' demanded)

theorem Patched.trailing {p : Patch} {c c' : Call} (patched : Patched p c c') :
    List.Forall₂ (Argument.Patched p) c.trailingArguments c'.trailingArguments := by
  rw [trailingArguments, trailingArguments, patched.printer]
  exact List.forall₂_drop _ patched.arguments

theorem Patched.agrees {p : Patch} (spelled : p.Spelled) {c c' : Call} (patched : Patched p c c')
    {pairs : List Pair} (agrees : List.Forall₂ Agrees pairs (c.check source).pairs) :
    List.Forall₂ Agrees pairs (c'.check source).pairs := by
  refine forall₂_trans ?_ agrees (forall₂_pairs patched.check_like patched.trailing)
  rintro q r r' ⟨_, agrees⟩ ⟨demand, argument, _, known⟩
  refine ⟨known, ?_⟩
  rintro ⟨cast, given, expected, written, family, demanded, differ⟩
  rw [argument.written? spelled] at written
  rw [demand.family?] at demanded
  exact agrees ⟨cast, given, expected, written, family, demanded, differ⟩

/-- The call with its casts, and with those of other calls in its arguments. -/
structure Kept (source : Source) (c c' : Call) : Prop where
  like : Places.same.Verdicts (c.check source) (c'.check source)
  agrees : List.Forall₂ Agrees (c.check source).pairs (c'.check source).pairs

end Call

theorem Mention.recasts_kept (source : Source) (o : Nat) (mentions : List Mention) :
    Recasts source o mentions (Call.Kept source) := by
  refine ⟨fun c _ => ⟨Call.recast_like _, Call.recast_agrees _ _ _⟩, ?_⟩
  intro p spelled _ c b b' kept patched
  exact ⟨kept.like.trans (Places.composes_same _) patched.check_like,
    patched.agrees spelled kept.agrees⟩

namespace Places.SameVerdicts

variable {places : Places} {v v' : Verdict}

/-- The same pairs disagree. -/
theorem disagree (same : places.SameVerdicts v v') :
    List.Forall₂ (fun p p' : Pair => p'.diagnostic?.isSome = p.diagnostic?.isSome) v.pairs
      v'.pairs := by
  refine same.pairs.imp ?_
  rintro p p' ⟨demand, cast⟩
  have like := Call.mismatch_like demand cast
  generalize p.diagnostic? = d at like
  generalize p'.diagnostic? = d' at like
  cases like <;> rfl

end Places.SameVerdicts

/-- A pair disagrees in the revised file only if it did before. -/
theorem Staged.mismatches {o : Nat} {pairs : List (Token × Token)} {source source' : Source}
    {c c' : Call} (staged : Staged o pairs source source' (Call.Kept source) c c') :
    List.Forall₂ (fun p p' : Pair => p'.diagnostic?.isSome = true → p.diagnostic?.isSome = true)
      (c.check source).pairs (c'.check source').pairs := by
  obtain ⟨b, kept, bare, moved⟩ := staged
  have agrees : List.Forall₂ Call.Agrees (c.check source).pairs (b.check source).pairs := by
    refine forall₂_trans ?_ bare.disagree kept.agrees
    exact fun p q r same agrees => ⟨agrees.1, fun misfits => same ▸ agrees.2 misfits⟩
  refine forall₂_trans ?_ agrees moved.disagree
  intro p r p' agrees same reported
  exact agrees.2 (Pair.misfits_of_diagnostic? agrees.1 (same ▸ reported))

/-- The same printer is called with as many arguments and the same format, and the call can still be
turned into a safe one, or still not. Casts that disagree with the format did so before. -/
structure Verdict.Preserves (v v' : Verdict) : Prop where
  printer : v'.call.printer = v.call.printer
  arguments : v'.call.arguments.length = v.call.arguments.length
  aborted : v'.isAborted = v.isAborted
  content : v'.format.map (fun f => (f.text, f.breaks)) = v.format.map fun f => (f.text, f.breaks)
  directives : v'.format.map (fun f => f.directives.map Prod.fst) =
    v.format.map fun f => f.directives.map Prod.fst
  demands : v'.format.map (fun f => f.demands.map fun d => (d.directive, d.role)) =
    v.format.map fun f => f.demands.map fun d => (d.directive, d.role)
  mismatches : List.Forall₂ (fun p p' : Pair => (p'.demand.directive, p'.demand.role) =
      (p.demand.directive, p.demand.role) ∧
    (p'.diagnostic?.isSome = true → p.diagnostic?.isSome = true)) v.pairs v'.pairs
  safe : v'.safeEdits?.isSome = v.safeEdits?.isSome

theorem map_eq_of_optionRel {α β γ : Type} {R : α → β → Prop} {f : α → γ} {g : β → γ}
    (same : ∀ a b, R a b → g b = f a) {first : Option α} {second : Option β}
    (like : Option.Rel R first second) : second.map g = first.map f := by
  cases like with
  | none => rfl
  | some here => exact congrArg some (same _ _ here)

theorem Staged.preserves {o : Nat} {pairs : List (Token × Token)} {source source' : Source}
    {c c' : Call} (staged : Staged o pairs source source' (Call.Kept source) c c') :
    (c.check source).Preserves (c'.check source') := by
  have like := staged.verdicts fun _ kept => kept.like
  refine ⟨like.printer, like.count, ?_, ?_, ?_, ?_, ?_, ?_⟩
  · have alike := map_eq_of_optionRel (f := fun _ => ()) (g := fun _ => ()) (fun _ _ _ => rfl)
      like.format
    rw [Verdict.isAborted, Verdict.isAborted, ← Option.isNone_map (f := fun _ => ()), alike,
      Option.isNone_map]
  · exact map_eq_of_optionRel (fun f f' spelled => by rw [spelled.text, spelled.breaks]) like.format
  · exact map_eq_of_optionRel
      (fun f f' spelled => map_eq_of_forall₂ (fun _ _ same => same.1) spelled.directives) like.format
  · exact map_eq_of_optionRel (fun f f' spelled => map_eq_of_forall₂
      (fun d d' same => by rw [same.directive, same.role]) spelled.demands) like.format
  · refine List.forall₂_iff_zip.2 ⟨like.demands.length_eq, fun {p p'} listed => ?_⟩
    have demand := (List.forall₂_iff_zip.1 like.demands).2 listed
    exact ⟨by rw [demand.directive, demand.role],
      (List.forall₂_iff_zip.1 staged.mismatches).2 listed⟩
  · rw [Bool.eq_iff_iff, Call.safeEdits?_isSome_iff, Call.safeEdits?_isSome_iff, like.eligible]

namespace Call

theorem mem_diagnostics_iff {c : Call} {source : Source} {d : Diagnostic}
    (mismatch : d.problem = .typeMismatch) : d ∈ (c.check source).diagnostics ↔
      ∃ p ∈ (c.check source).pairs, p.diagnostic? = some d := by
  obtain ⟨front, front', back, back', n, layout⟩ :=
    check_layout source source (Places.calls_refl c)
  rw [layout.diagnostics, List.append_assoc, List.mem_append, List.mem_append, List.mem_filterMap]
  constructor
  · rintro (before | here | behind)
    · exact absurd mismatch (layout.remarks d (by simp [before]))
    · exact here
    · exact absurd mismatch (layout.remarks d (by simp [behind]))
  · exact fun here => .inr (.inl here)

end Call

/-- A call that cannot be read has no casts to remark on. -/
theorem Mention.diagnostics_problem {table : PrinterTable} {previous : Option Token}
    {tokens : List Token} : ∀ d ∈ diagnostics (scan table previous tokens),
      d.problem ≠ .typeMismatch := by
  intro d member mismatch
  obtain ⟨printer, name, opening, rest, read⟩ := mem_diagnostics member
  have error := readCall_malformed read
  rw [Diagnostic.isError, Diagnostic.severity, mismatch] at error
  cases error

namespace Analysis

/-- The disagreement of the pair with the given number in the call with the given number. -/
def mismatch? (a : Analysis) (call pair : Nat) : Option Diagnostic :=
  (a.verdicts[call]?).bind fun v => (v.pairs[pair]?).bind Pair.diagnostic?

/-- The same is said about all calls, but for casts that disagree with their directives; those that
do so in the second analysis did so in the first one. -/
structure Preserves (a a' : Analysis) : Prop where
  fatal : a'.isFatal = a.isFatal
  verdicts : List.Forall₂ Verdict.Preserves a.verdicts a'.verdicts
  remarks : (a'.diagnostics.filter (·.problem ≠ .typeMismatch)).map
      (fun d => (d.problem, d.message)) =
    (a.diagnostics.filter (·.problem ≠ .typeMismatch)).map fun d => (d.problem, d.message)
  mismatches : ∀ d' ∈ a'.diagnostics, d'.problem = .typeMismatch →
    ∃ call pair d, a'.mismatch? call pair = some d' ∧ a.mismatch? call pair = some d ∧
      d ∈ a.diagnostics

variable {source : Source} {table : PrinterTable} {tokens : List Token}

/-- A disagreement that is reported is that of a pair. -/
theorem exists_mismatch? (source : Source)
    (read : Token.tokenize source.name source.content = .ok tokens)
    {d : Diagnostic} (reported : d ∈ (source.analyze table).diagnostics)
    (mismatch : d.problem = .typeMismatch) :
    ∃ call pair, (source.analyze table).mismatch? call pair = some d := by
  rw [analyze_eq source read] at reported ⊢
  have member := (sortByPair_perm Diagnostic.sortKey _).subset reported
  rcases List.mem_append.1 member with outside | inside
  · exact absurd mismatch (Mention.diagnostics_problem d outside)
  · obtain ⟨v, checked, found⟩ := List.mem_flatMap.1 inside
    obtain ⟨call, place⟩ := List.getElem?_of_mem checked
    obtain ⟨c, _, rfl⟩ := List.mem_map.1 checked
    obtain ⟨p, paired, made⟩ := (Call.mem_diagnostics_iff mismatch).1 found
    obtain ⟨pair, place'⟩ := List.getElem?_of_mem paired
    exact ⟨call, pair, by rw [mismatch?, place, Option.bind_some, place', Option.bind_some, made]⟩

theorem mem_of_mismatch? (read : Token.tokenize source.name source.content = .ok tokens)
    {call pair : Nat} {d : Diagnostic}
    (found : (source.analyze table).mismatch? call pair = some d) :
    d ∈ (source.analyze table).diagnostics := by
  rw [analyze_eq source read] at found ⊢
  obtain ⟨v, place, found⟩ := Option.bind_eq_some_iff.1 found
  obtain ⟨p, place', made⟩ := Option.bind_eq_some_iff.1 found
  have checked := List.mem_of_getElem? place
  refine (sortByPair_perm Diagnostic.sortKey _).symm.subset (List.mem_append_right _ ?_)
  refine List.mem_flatMap.2 ⟨v, checked, ?_⟩
  obtain ⟨c, _, rfl⟩ := List.mem_map.1 checked
  exact (Call.mem_diagnostics_iff (Call.mismatch_problem made)).2
    ⟨p, List.mem_of_getElem? place', made⟩

theorem mismatch_before {a a' : Analysis}
    (verdicts : List.Forall₂ Verdict.Preserves a.verdicts a'.verdicts) {call pair : Nat}
    {d' : Diagnostic} (found : a'.mismatch? call pair = some d') :
    ∃ d, a.mismatch? call pair = some d := by
  obtain ⟨v', place, found⟩ := Option.bind_eq_some_iff.1 found
  obtain ⟨p', place', made⟩ := Option.bind_eq_some_iff.1 found
  have related := forall₂_getElem? verdicts call
  rw [place] at related
  unfold mismatch?
  generalize a.verdicts[call]? = v at related
  cases related with
  | @some v _ preserves =>
      have paired := forall₂_getElem? preserves.mismatches pair
      rw [place'] at paired
      rw [Option.bind_some]
      generalize v.pairs[pair]? = p at paired
      cases paired with
      | some like =>
          exact Option.isSome_iff_exists.1 (like.2 (by rw [made]; rfl))

/-- The remarks on alike mentions come in the same order, but for those on casts. -/
theorem remarks_eq {places : Places} (ordered : places.InOrder) {R : Call → Call → Prop}
    {mentions mentions' : List Mention} {source source' : Source}
    (like : List.Forall₂ (places.Mentions R) mentions mentions')
    (checked : ∀ c c', R c c' → places.Verdicts (c.check source) (c'.check source')) :
    ((Diagnostic.sort (Mention.diagnostics mentions' ++
      ((Mention.calls mentions').map (·.check source')).flatMap (·.diagnostics))).filter
        (·.problem ≠ .typeMismatch)).map (fun d => (d.problem, d.message)) =
    ((Diagnostic.sort (Mention.diagnostics mentions ++
      ((Mention.calls mentions).map (·.check source)).flatMap (·.diagnostics))).filter
        (·.problem ≠ .typeMismatch)).map fun d => (d.problem, d.message) := by
  have outside : List.Forall₂ places.Diagnostics
      ((Mention.diagnostics mentions).filter (·.problem ≠ .typeMismatch))
      ((Mention.diagnostics mentions').filter (·.problem ≠ .typeMismatch)) :=
    List.rel_filter (fun d d' same => by simp [same.problem]) (Places.mentions_diagnostics like)
  have inside : List.Forall₂ places.Diagnostics
      ((Mention.calls mentions).flatMap fun c =>
        (c.check source).diagnostics.filter (·.problem ≠ .typeMismatch))
      ((Mention.calls mentions').flatMap fun c =>
        (c.check source').diagnostics.filter (·.problem ≠ .typeMismatch)) :=
    List.rel_flatMap (Places.mentions_calls like) fun c c' here => (checked c c' here).remarks
  rw [Diagnostic.sort, Diagnostic.sort, filter_sortByPair, filter_sortByPair, List.filter_append,
    List.filter_append, List.filter_flatMap, List.filter_flatMap, List.flatMap_map,
    List.flatMap_map]
  refine map_eq_of_forall₂ (fun d d' same => ?_) (ordered.sort (List.rel_append outside inside))
  rw [same.problem, same.message]

/-- Writing out the casts changes nothing that is said about a file, but for casts that disagree
with their directives, of which there are no new ones. -/
theorem typecast_preserves (read : Token.tokenize source.name source.content = .ok tokens) :
    ∃ revised, (source.analyze .standard).typecast = .ok revised ∧
      Preserves (source.analyze .standard) (Source.analyze ⟨source.name, revised⟩ .standard) := by
  obtain ⟨revised, others, o, pairs, made, cut, aligned, stages⟩ := typecast_stages read
  refine ⟨revised, made, ?_⟩
  have mentions := stages _ (Mention.recasts_kept source o _)
  have staged := Places.mentions_calls mentions
  have outside := Places.mentions_diagnostics mentions
  have verdicts : List.Forall₂ Verdict.Preserves (source.analyze .standard).verdicts
      (Source.analyze ⟨source.name, revised⟩ .standard).verdicts := by
    rw [analyze_eq source read, analyze_eq ⟨source.name, revised⟩ cut]
    exact List.rel_map (fun c c' (here : Staged o pairs source ⟨source.name, revised⟩
      (Call.Kept source) c c') => here.preserves) staged
  refine ⟨?_, verdicts, ?_, ?_⟩
  · rw [analyze_eq source read, analyze_eq ⟨source.name, revised⟩ cut]
    rfl
  · rw [analyze_eq source read, analyze_eq ⟨source.name, revised⟩ cut]
    exact remarks_eq aligned.inOrder mentions fun c c' here => here.verdicts fun _ kept => kept.like
  · intro d' reported mismatch
    obtain ⟨call, pair, found⟩ := exists_mismatch? ⟨source.name, revised⟩ cut reported
      mismatch
    obtain ⟨d, before⟩ := mismatch_before verdicts found
    exact ⟨call, pair, d, found, before, mem_of_mismatch? read before⟩

/-- Both calls are found again, and what is said about them. -/
theorem typecast_preserves_nestedCalls :
    ∃ tokens, Token.tokenize [] (Lexeme.flatten nestedCalls) = .ok tokens ∧
      (Source.analyze ⟨[], Lexeme.flatten nestedCalls⟩ .standard).typecast =
        .ok "printf(\"%d\", (int) (printf(\"%s\", (char*) (x))))" ∧
      Preserves (Source.analyze ⟨[], Lexeme.flatten nestedCalls⟩ .standard)
        (Source.analyze ⟨[], "printf(\"%d\", (int) (printf(\"%s\", (char*) (x))))"⟩
          .standard) := by
  obtain ⟨revised, made, preserves⟩ :=
    @typecast_preserves ⟨[], Lexeme.flatten nestedCalls⟩ _ tokenize_nestedCalls
  rw [typecast_nestedCalls] at made
  cases made
  exact ⟨_, tokenize_nestedCalls, typecast_nestedCalls, preserves⟩

end Analysis

end FormatLint
