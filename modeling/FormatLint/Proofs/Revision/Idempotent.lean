import FormatLint.Proofs.Revision.CastStages

/-!
Writing out the casts once is enough. A cast that was written out is recognized again, if its argument
is properly nested, and is still recognized when other casts are written into the argument. So the
revised text has all its casts, and writing them out again leaves it as it is:
`Analysis.typecast_idempotent`.
-/

namespace FormatLint

/-- Nothing is left to cast: the arguments before the format have casts, and those behind it have
casts to known types where their directives ask for any. -/
def Verdict.Settled (v : Verdict) : Prop :=
  v.isAborted = true ∨
    ((∀ a ∈ v.call.fixedArguments, a.cast?.isSome = true) ∧
      ∀ p ∈ v.pairs, p.demand.cType?.isSome = true → p.isExplicit = true)

namespace Verdict

variable {v v' : Verdict}

theorem Settled.castEdits (settled : v.Settled) : v.castEdits = [] := by
  unfold Verdict.castEdits
  rcases settled with aborted | ⟨fixed, paired⟩
  · rw [if_pos aborted]
  · split
    · rfl
    · rw [fixedCastEdits, pairCastEdits, List.append_eq_nil_iff, List.flatMap_eq_nil_iff,
        List.flatMap_eq_nil_iff]
      constructor
      · rintro ⟨a, cType⟩ member
        have cast := fixed a (List.of_mem_zip member).1
        simp [Option.isNone_iff_eq_none, Option.isSome_iff_ne_none.1 cast]
      · intro p member
        cases typed : p.demand.cType? with
        | none => rfl
        | some cType => simp [paired p member (by simp [typed])]

/-- Calls whose arguments are cast to the same types are settled at once. -/
theorem Settled.same {places : Places} (settled : v.Settled) (same : places.SameVerdicts v v') :
    v'.Settled := by
  rcases settled with aborted | ⟨fixed, paired⟩
  · left
    have format := same.format
    unfold isAborted at aborted ⊢
    rw [Option.isNone_iff_eq_none.1 aborted] at format
    generalize v'.format = f at format
    cases format
    rfl
  · right
    constructor
    · have casts : ∀ type ∈ v'.call.fixedArguments.map Argument.castType?, type.isSome = true := by
        rw [same.fixed]
        intro type member
        obtain ⟨a, listed, rfl⟩ := List.mem_map.1 member
        simpa [Argument.castType?] using fixed a listed
      intro a listed
      simpa [Argument.castType?] using casts _ (List.mem_map_of_mem listed)
    · intro p' member typed
      obtain ⟨p, listed, demand, cast⟩ := forall₂_exists same.pairs member
      rw [demand.cType?] at typed
      rw [Pair.isExplicit, Pair.family?_same cast]
      exact paired p listed typed

end Verdict

namespace Call

variable {source : Source} {o : Nat}

theorem fixed_recast {front : List Argument} {types : List Text}
    (nested : ∀ a ∈ front, Token.Nested a.code) (known : ∀ cType ∈ types, CType.Plain cType)
    (same : front.length = types.length) :
    ∀ a ∈ Argument.recastAll o front (List.zipWith Argument.fixedCast? front types),
      a.cast?.isSome = true := by
  induction front generalizing types with
  | nil => exact fun a member => absurd member (by simp)
  | cons a front ih =>
      obtain ⟨cType, types, rfl⟩ := List.exists_cons_of_length_eq_add_one same.symm
      intro b member
      rw [List.zipWith_cons_cons, Argument.recastAll] at member
      rcases List.mem_cons.1 member with rfl | later
      · cases cast : a.cast? with
        | none =>
            have own := Argument.cast?_castTo (o := o) (known cType List.mem_cons_self)
              (nested a List.mem_cons_self)
            obtain ⟨c, found, _⟩ := own
            simp [Argument.fixedCast?, Argument.castType?, cast, Argument.recast, found]
        | some c => simp [Argument.fixedCast?, Argument.castType?, cast, Argument.recast]
      · exact ih (fun a member => nested a (List.mem_cons_of_mem _ member))
          (fun cType member => known cType (List.mem_cons_of_mem _ member)) (Nat.succ.inj same) b later

/-- A call is settled when its own casts are written out, if its arguments are properly nested. -/
theorem recast_settled {c : Call} {identifier : Text}
    (listed : PrinterTable.standard.find? identifier = some c.printer)
    (nested : ∀ a ∈ c.arguments, Token.Nested a.code) :
    ((c.recast o source).check source).Settled := by
  cases known : (c.check source).format with
  | none =>
      left
      rw [recast_aborted known, Verdict.isAborted, known]
      rfl
  | some f =>
      right
      obtain ⟨fixed, _⟩ := recast_parts (o := o) known
      constructor
      · rw [check_call, fixed]
        refine fixed_recast (fun a member => nested a ?_) (CType.fixed_plain listed)
          (fixedArguments_length known)
        exact List.mem_of_mem_take member
      · intro p' member typed
        obtain ⟨p, paired, demand, cast, argument, cast'⟩ :=
          forall₂_exists (recast_pairs c) member
        have inside : p.argument ∈ c.arguments := List.mem_of_mem_drop
          ((check_pairs c source).subset (List.mem_map_of_mem paired))
        rw [demand] at typed
        rw [Pair.isExplicit, Pair.family?, cast', argument, Pair.castType?]
        cases explicit : p.isExplicit with
        | true =>
            rw [if_pos rfl, Argument.recast, Option.elim_none, ← cast]
            exact explicit
        | false =>
            obtain ⟨cType, demanded⟩ := Option.isSome_iff_exists.1 typed
            obtain ⟨plain, _, family⟩ := CType.demand_plain demanded
            obtain ⟨c', found, same⟩ := Argument.cast?_castTo (o := o) plain
              (nested p.argument inside)
            rw [if_neg Bool.false_ne_true, demanded, Argument.recast, Option.elim_some, found,
              Option.bind_some, same]
            exact family

end Call

/-- Calls are settled by their own casts, and stay so when calls in their arguments are. -/
theorem Mention.recasts_settled (source : Source) (o : Nat) {tokens : List Token}
    (nested : ∀ c, .call c ∈ ofTokens .standard tokens → ∀ a ∈ c.arguments, Token.Nested a.code) :
    Recasts source o (ofTokens .standard tokens) fun _ b => (b.check source).Settled := by
  refine ⟨fun c found => ?_, fun p spelled even _ b b' settled patched => ?_⟩
  · obtain ⟨s, listed, mention⟩ := site_of_scan found
    obtain ⟨_, _, _, _, printer⟩ := Site.lists_of_call mention
    have tracked := (Site.mem_ofTokens_iff.1 listed).2.listed
    have named : PrinterTable.standard.find? s.name.lexeme = some c.bare.printer := by
      rw [Call.bare, printer]
      exact tracked
    refine Call.recast_settled named fun a member => ?_
    obtain ⟨a', inside, rfl⟩ := List.mem_map.1 member
    rw [(trimmed_of_scan found a' inside).bare_code]
    exact nested c found a' inside
  · exact settled.same (patched.check_same spelled (even nested))

namespace Analysis

variable {source : Source} {table : PrinterTable} {tokens : List Token}

theorem typecast_settled (settled : ∀ v ∈ (source.analyze table).verdicts, v.Settled) :
    (source.analyze table).typecast = .ok source.content := by
  have uncast : (source.analyze table).verdicts.flatMap (·.castEdits) = [] :=
    List.flatMap_eq_nil_iff.2 fun v member => (settled v member).castEdits
  rw [typecast, uncast, analyze_source, Edit.applyAll_nil]

/-- Writing out the casts of a file whose arguments are properly nested settles all calls, so there
are no more casts to write out. -/
theorem typecast_idempotent
    (nested : ∀ v ∈ (source.analyze .standard).verdicts, ∀ a ∈ v.call.arguments,
      Token.Nested a.code) :
    ∃ revised, (source.analyze .standard).typecast = .ok revised ∧
      (Source.analyze ⟨source.name, revised⟩ .standard).typecast = .ok revised ∧
      ∀ v ∈ (Source.analyze ⟨source.name, revised⟩ .standard).verdicts, v.Settled := by
  cases read : Token.tokenize source.name source.content with
  | error fault =>
      have empty : (source.analyze .standard).verdicts = [] :=
        verdicts_eq_nil_of_isFatal ((isFatal_iff source .standard).2 ⟨fault, read⟩)
      have settled : ∀ v ∈ (source.analyze .standard).verdicts, v.Settled := by
        rw [empty]
        exact fun v member => absurd member List.not_mem_nil
      have same := typecast_settled settled
      exact ⟨source.content, same, same, settled⟩
  | ok tokens =>
      obtain ⟨revised, others, o, pairs, made, cut, _, stages⟩ := typecast_stages read
      have nesting : ∀ c, .call c ∈ Mention.ofTokens .standard tokens → ∀ a ∈ c.arguments,
          Token.Nested a.code := by
        intro c found a inside
        rw [analyze_eq source read] at nested
        have listed : c ∈ Mention.calls (Mention.ofTokens .standard tokens) :=
          List.mem_filterMap.2 ⟨_, found, rfl⟩
        have here := nested _ (List.mem_map_of_mem (f := (·.check source)) listed)
        rw [Call.check_call] at here
        exact here a inside
      have staged := Places.mentions_calls (stages _ (Mention.recasts_settled source o nesting))
      have settled : ∀ v ∈ (Source.analyze ⟨source.name, revised⟩ .standard).verdicts,
          v.Settled := by
        rw [analyze_eq ⟨source.name, revised⟩ cut]
        intro v member
        obtain ⟨c', listed, rfl⟩ := List.mem_map.1 member
        obtain ⟨c, _, b, done, _, moved⟩ := forall₂_exists staged listed
        exact done.same moved
      exact ⟨revised, made, typecast_settled settled, settled⟩

/-- The casts of both calls are recognized in the revised text, the one around a call too. -/
theorem typecast_idempotent_nestedCalls :
    (∀ v ∈ (Source.analyze ⟨[], Lexeme.flatten nestedCalls⟩ .standard).verdicts,
      ∀ a ∈ v.call.arguments, Token.Nested a.code) ∧
    (Source.analyze ⟨[], "printf(\"%d\", (int) (printf(\"%s\", (char*) (x))))"⟩
      .standard).typecast = .ok "printf(\"%d\", (int) (printf(\"%s\", (char*) (x))))" ∧
    ∀ v ∈ (Source.analyze ⟨[], "printf(\"%d\", (int) (printf(\"%s\", (char*) (x))))"⟩
      .standard).verdicts, v.Settled := by
  have nested : ∀ v ∈ (Source.analyze ⟨[], Lexeme.flatten nestedCalls⟩ .standard).verdicts,
      ∀ a ∈ v.call.arguments, Token.Nested a.code := by
    rw [analyze_eq ⟨[], Lexeme.flatten nestedCalls⟩ tokenize_nestedCalls]
    decide
  obtain ⟨revised, made, again, settled⟩ :=
    @typecast_idempotent ⟨[], Lexeme.flatten nestedCalls⟩ nested
  rw [typecast_nestedCalls] at made
  cases made
  exact ⟨nested, again, settled⟩

end Analysis

end FormatLint
