import FormatLint.Proofs.Revision.Idempotent
import FormatLint.Proofs.Revision.Remain

/-!
Files with nothing wrong. Neither revision gives reason for a remark, so what becomes of such a file is
clean as well; and if its arguments are properly nested, its casts are written out once and for all.
-/

namespace FormatLint

/-- The file can be cut into tokens, and nothing is said about it. -/
structure Analysis.Clean (a : Analysis) : Prop where
  fatal : a.isFatal = false
  quiet : a.diagnostics = []

/-- Both relations hold of each call and what it becomes. -/
theorem Mention.Recasts.and {source : Source} {o : Nat} {mentions : List Mention}
    {R S : Call → Call → Prop} (first : Recasts source o mentions R)
    (second : Recasts source o mentions S) :
    Recasts source o mentions fun c b => R c b ∧ S c b where
  own c found := ⟨first.own c found, second.own c found⟩
  swap p spelled even c b b' related patched :=
    ⟨first.swap p spelled even c b b' related.1 patched,
      second.swap p spelled even c b b' related.2 patched⟩

theorem Staged.quiet {o : Nat} {pairs : List (Token × Token)} {source source' : Source} {c c' : Call}
    (staged : Staged o pairs source source' (Call.Kept source) c c')
    (quiet : (c.check source).diagnostics = []) : (c'.check source').diagnostics = [] := by
  have remarks := (staged.verdicts fun _ kept => kept.like).remarks
  rw [quiet, List.filter_nil, List.forall₂_nil_left_iff] at remarks
  refine List.eq_nil_iff_forall_not_mem.2 fun d reported => ?_
  by_cases mismatch : d.problem = .typeMismatch
  · obtain ⟨p', paired, made⟩ := (Call.mem_diagnostics_iff mismatch).1 reported
    obtain ⟨p, among, before⟩ := forall₂_exists staged.mismatches paired
    obtain ⟨d', made'⟩ := Option.isSome_iff_exists.1 (before (by rw [made]; rfl))
    have listed := (Call.mem_diagnostics_iff (Call.mismatch_problem made')).2 ⟨p, among, made'⟩
    rw [quiet] at listed
    cases listed
  · exact List.filter_eq_nil_iff.1 remarks d reported (by simpa using mismatch)

namespace Analysis

variable {source : Source} {table : PrinterTable} {tokens : List Token}

theorem clean_iff (read : Token.tokenize source.name source.content = .ok tokens) :
    (source.analyze table).Clean ↔ Mention.diagnostics (Mention.ofTokens table tokens) = [] ∧
      ∀ c ∈ Mention.calls (Mention.ofTokens table tokens), (c.check source).diagnostics = [] := by
  have sorted (ds : List Diagnostic) : Diagnostic.sort ds = [] ↔ ds = [] := by
    rw [← List.length_eq_zero_iff, ← List.length_eq_zero_iff (l := ds), Diagnostic.sort,
      (sortByPair_perm Diagnostic.sortKey ds).length_eq]
  have quiet : (source.analyze table).diagnostics = [] ↔
      Mention.diagnostics (Mention.ofTokens table tokens) = [] ∧
        ∀ c ∈ Mention.calls (Mention.ofTokens table tokens), (c.check source).diagnostics = [] := by
    rw [analyze_eq source read, sorted, List.append_eq_nil_iff, List.flatMap_eq_nil_iff,
      List.forall_mem_map]
  refine ⟨fun clean => quiet.1 clean.quiet, fun silent => ⟨?_, quiet.2 silent⟩⟩
  rw [analyze_eq source read]
  rfl

theorem Clean.exists_tokens (clean : (source.analyze table).Clean) :
    ∃ tokens, Token.tokenize source.name source.content = .ok tokens := by
  cases read : Token.tokenize source.name source.content with
  | ok tokens => exact ⟨tokens, rfl⟩
  | error fault =>
      have fatal := (isFatal_iff source table).2 ⟨fault, read⟩
      rw [clean.fatal] at fatal
      cases fatal

/-- The casts of a clean file whose arguments are properly nested give no reason for a remark, and
there are none to write out behind them. -/
theorem Clean.typecast (clean : (source.analyze .standard).Clean)
    (nested : ∀ v ∈ (source.analyze .standard).verdicts, ∀ a ∈ v.call.arguments,
      Token.Nested a.code) :
    ∃ revised, (source.analyze .standard).typecast = .ok revised ∧
      (Source.analyze ⟨source.name, revised⟩ .standard).Clean ∧
      (Source.analyze ⟨source.name, revised⟩ .standard).typecast = .ok revised := by
  obtain ⟨tokens, read⟩ := clean.exists_tokens
  obtain ⟨silent, quiet⟩ := (clean_iff read).1 clean
  obtain ⟨revised, others, o, pairs, made, cut, _, stages⟩ := typecast_stages read
  have nesting : ∀ c, .call c ∈ Mention.ofTokens .standard tokens → ∀ a ∈ c.arguments,
      Token.Nested a.code := by
    intro c found
    have checked : c.check source ∈ (source.analyze .standard).verdicts := by
      rw [analyze_eq source read]
      exact List.mem_map_of_mem (List.mem_filterMap.2 ⟨_, found, rfl⟩)
    have here := nested _ checked
    rwa [Call.check_call] at here
  have mentions := stages _
    ((Mention.recasts_kept source o _).and (Mention.recasts_settled source o nesting))
  have staged := Places.mentions_calls mentions
  have outside := Places.mentions_diagnostics mentions
  rw [silent, List.forall₂_nil_left_iff] at outside
  refine ⟨revised, made, ?_, ?_⟩
  · refine (@clean_iff ⟨source.name, revised⟩ _ _ cut).2 ⟨outside, fun c' found => ?_⟩
    obtain ⟨c, listed, b, ⟨kept, _⟩, bare, moved⟩ := forall₂_exists staged found
    exact Staged.quiet ⟨b, kept, bare, moved⟩ (quiet c listed)
  · refine @typecast_settled ⟨source.name, revised⟩ _ fun v member => ?_
    rw [analyze_eq ⟨source.name, revised⟩ cut] at member
    obtain ⟨c', found, rfl⟩ := List.mem_map.1 member
    obtain ⟨c, _, b, ⟨_, settled⟩, _, moved⟩ := forall₂_exists staged found
    exact settled.same moved

theorem Clean.optimize (clean : (source.analyze .standard).Clean) :
    ∃ revised, (source.analyze .standard).optimize = .ok revised ∧
      (Source.analyze ⟨source.name, revised⟩ .standard).Clean := by
  obtain ⟨tokens, read⟩ := clean.exists_tokens
  obtain ⟨silent, quiet⟩ := (clean_iff read).1 clean
  obtain ⟨revised, others, o, pairs, made, cut, _, stages⟩ := optimize_stages read
  have staged := Places.mentions_calls stages
  have outside := Places.mentions_diagnostics stages
  rw [Mention.diagnostics_stays, Mention.diagnostics_filter, silent,
    List.forall₂_nil_left_iff] at outside
  rw [Mention.calls_filter] at staged
  refine ⟨revised, made, (@clean_iff ⟨source.name, revised⟩ _ _ cut).2 ⟨outside, fun c' found => ?_⟩⟩
  obtain ⟨c, stays, here⟩ := forall₂_exists staged found
  have listed : c ∈ Mention.calls (Mention.ofTokens .standard tokens) := by
    obtain ⟨m, member, called⟩ := List.mem_filterMap.1 stays
    exact List.mem_filterMap.2 ⟨m, (List.mem_filter.1 member).1, called⟩
  have same := (here.same fun _ stays => stays.same).diagnostics
  rw [quiet c listed, List.forall₂_nil_left_iff] at same
  exact same

end Analysis

end FormatLint
