import FormatLint.Proofs.Analysis.Errors
import FormatLint.Proofs.Analysis.Like
import FormatLint.Proofs.Call.Placement
import FormatLint.Revision.SafeCall

/-!
Which calls are turned into safe ones. `Call.eligible_of_tags?` and `Call.tags?_of_eligible` say
that these are the eligible ones, and which tags their arguments get.
-/

namespace FormatLint

/-- The call is right, takes its values one by one, and its format uses nothing but plain directives
that print, one for each value. -/
structure Verdict.IsEligible (v : Verdict) (f : FormatString) : Prop where
  format : v.format = some f
  variadic : v.call.printer.variadic = true
  clean : v.hasErrors = false
  plain : ∀ d ∈ f.directives, d.1.flags = [] ∧ d.1.width = none ∧ d.1.precision = none ∧
    d.1.length = none ∧ d.1.conversion? ≠ some .count
  matched : v.call.trailingArguments.length = f.demands.length

theorem mapM_eq_some_iff {α β : Type} {make : α → Option β} {elements : List α} {made : List β} :
    elements.mapM make = some made ↔ elements.map make = made.map some := by
  induction elements generalizing made with
  | nil => cases made <;> simp
  | cons x elements ih =>
      have step : (x :: elements).mapM make = some made ↔
          ∃ y, make x = some y ∧ ∃ later, elements.mapM make = some later ∧ y :: later = made := by
        simp [Option.bind_eq_some_iff]
      rw [step]
      cases made with
      | nil => simp
      | cons y later => simp [ih]

namespace FormatString

theorem isPlain_iff {d : Directive} :
    d.isPlain = true ↔
      d.flags = [] ∧ d.width = none ∧ d.precision = none ∧ d.length = none := by
  simp [Directive.isPlain, and_assoc]

/-- Without widths and precisions each directive demands its value and nothing else. -/
theorem demands_of_plain {f : FormatString} (plain : ∀ d ∈ f.directives, d.1.isPlain = true) :
    f.demands = f.directives.map fun d => ⟨d.1, d.2, .value⟩ := by
  unfold demands
  generalize f.directives = directives at plain
  induction directives with
  | nil => rfl
  | cons d later ih =>
      obtain ⟨_, width, precision, _⟩ := isPlain_iff.1 (plain d List.mem_cons_self)
      rw [List.flatMap_cons, List.map_cons,
        ih fun other member => plain other (List.mem_cons_of_mem d member)]
      simp [Demand.ofDirective, width, precision]

end FormatString

namespace Call

theorem check_format {c : Call} {source : Source} {f : FormatString}
    (found : (c.check source).format = some f) :
    ∃ a, c.format? = some a ∧ FormatString.ofArgument? a = some f ∧
      (c.printer.variadic = true →
        (c.check source).pairs = pair f.demands c.trailingArguments) := by
  unfold check at found ⊢
  cases place : c.format? with
  | none =>
      rw [place] at found
      cases found
  | some a =>
      rw [place] at found
      dsimp only at found ⊢
      cases spelled : FormatString.ofArgument? a with
      | none =>
          rw [spelled] at found
          cases found
      | some format =>
          rw [spelled] at found
          dsimp only at found ⊢
          split at found
          · rename_i variadic
            cases found
            exact ⟨a, rfl, spelled, fun _ => by simp [variadic]⟩
          · rename_i listed
            cases found
            exact ⟨a, rfl, spelled, fun variadic => absurd variadic listed⟩

theorem pair_demands {demands : List Demand} {arguments : List Argument}
    (same : demands.length = arguments.length) : (pair demands arguments).map (·.demand) = demands := by
  have second : (pair demands arguments).map (·.demand) =
      (arguments.zip demands).map Prod.snd := by
    simp [pair, Function.comp_def]
  rw [second, List.map_snd_zip (Nat.le_of_eq same)]

end Call

namespace Demand

theorem tag?_eq_some_iff {d : Demand} {tag : Text} :
    d.tag? = some tag ↔
      d.directive.conversion? ≠ some .count ∧ d.family?.map Family.tag = some tag := by
  unfold tag?
  split <;> simp_all

end Demand

namespace Verdict

theorem tags?_eq_some_iff {v : Verdict} {tags : List Text} :
    v.tags? = some tags ↔ ∃ f, v.format = some f ∧ v.hasErrors = false ∧
      v.call.printer.variadic = true ∧ (∀ d ∈ f.directives, d.1.isPlain = true) ∧
      v.pairs.length = v.call.trailingArguments.length ∧ v.pairs.length = f.demands.length ∧
      v.pairs.map (·.demand.tag?) = tags.map some := by
  unfold tags?
  cases v.format with
  | none => simp
  | some f =>
      dsimp only
      split
      · rename_i accepted
        simp only [Bool.and_eq_true, Bool.not_eq_true', decide_eq_true_eq, List.all_eq_true]
          at accepted
        obtain ⟨⟨⟨⟨clean, variadic⟩, plain⟩, trailing⟩, demanded⟩ := accepted
        rw [mapM_eq_some_iff]
        constructor
        · exact fun tagged => ⟨f, rfl, clean, variadic, plain, trailing, demanded, tagged⟩
        · rintro ⟨_, _, _, _, _, _, _, tagged⟩
          exact tagged
      · rename_i rejected
        simp only [reduceCtorEq, false_iff]
        rintro ⟨_, same, clean, variadic, plain, trailing, demanded, _⟩
        cases same
        simp_all

end Verdict

namespace Call

variable {c : Call} {source : Source}

/-- The tags of a call are those of the demands of its format. -/
theorem tags_demands {f : FormatString} {tags : List Text}
    (paired : (c.check source).pairs = pair f.demands c.trailingArguments)
    (same : f.demands.length = c.trailingArguments.length) :
    (c.check source).pairs.map (·.demand.tag?) = tags.map some ↔
      (∀ d ∈ f.demands, d.directive.conversion? ≠ some .count) ∧
        tags.map some = f.demands.map fun d => d.family?.map Family.tag := by
  have demands := pair_demands same
  have tagged : (c.check source).pairs.map (·.demand.tag?) = f.demands.map Demand.tag? := by
    rw [paired]
    conv => rhs; rw [← demands]
    rw [List.map_map]
    rfl
  rw [tagged]
  clear paired same demands tagged
  generalize f.demands = wanted
  induction wanted generalizing tags with
  | nil => cases tags <;> simp
  | cons d later ih =>
      cases tags with
      | nil => simp
      | cons tag others =>
          simp only [List.map_cons, List.cons.injEq, ih, Demand.tag?_eq_some_iff,
            List.mem_cons, forall_eq_or_imp]
          grind

theorem pair_length (demands : List Demand) (arguments : List Argument) :
    (pair demands arguments).length = min arguments.length demands.length := by
  simp [pair]

/-- Only eligible calls are turned. -/
theorem eligible_of_tags? {tags : List Text} (found : (c.check source).tags? = some tags) :
    ∃ f, (c.check source).IsEligible f := by
  obtain ⟨f, format, clean, variadic, plain, trailing, demanded, tagged⟩ :=
    Verdict.tags?_eq_some_iff.1 found
  obtain ⟨_, _, _, pairs⟩ := check_format format
  rw [check_call] at variadic trailing
  rw [trailing] at demanded
  obtain ⟨prints, _⟩ := (tags_demands (pairs variadic) demanded.symm).1 tagged
  refine ⟨f, format, by rwa [check_call], clean, ?_, by rwa [check_call]⟩
  intro d member
  obtain ⟨flags, width, precision, length⟩ := FormatString.isPlain_iff.1 (plain d member)
  refine ⟨flags, width, precision, length, prints ⟨d.1, d.2, .value⟩ ?_⟩
  rw [FormatString.demands_of_plain plain]
  exact List.mem_map_of_mem member

/-- Every eligible call is turned, and each argument gets the tag of its family. -/
theorem tags?_of_eligible {f : FormatString} (eligible : (c.check source).IsEligible f) :
    ∃ tags, (c.check source).tags? = some tags ∧
      tags.map some = f.demands.map fun d => d.family?.map Family.tag := by
  obtain ⟨format, variadic, clean, plain, matched⟩ := eligible
  obtain ⟨a, place, spelled, pairs⟩ := check_format format
  rw [check_call] at variadic matched
  have simple : ∀ d ∈ f.directives, d.1.isPlain = true := by
    intro d member
    obtain ⟨flags, width, precision, length, _⟩ := plain d member
    exact FormatString.isPlain_iff.2 ⟨flags, width, precision, length⟩
  have demands := FormatString.demands_of_plain simple
  obtain ⟨valid, _⟩ := (hasErrors_check_of_literal source place spelled).1 clean
  obtain ⟨tags, tagged⟩ : ∃ tags : List Text,
      tags.map some = f.demands.map fun d => d.family?.map Family.tag := by
    refine ⟨f.demands.map fun d => (d.family?.map Family.tag).getD [], ?_⟩
    rw [List.map_map]
    refine List.map_congr_left fun d member => ?_
    rw [demands] at member
    obtain ⟨directive, inside, rfl⟩ := List.mem_map.1 member
    have known := valid directive.1 (List.mem_map_of_mem inside)
    have hasFamily : directive.1.family?.isSome = true := by
      simpa [Directive.isInvalid, Directive.family?] using known
    obtain ⟨family, found⟩ := Option.isSome_iff_exists.1 hasFamily
    simp [Demand.family?, found]
  refine ⟨tags, Verdict.tags?_eq_some_iff.2 ⟨f, format, clean, ?_⟩, tagged⟩
  rw [check_call, pairs variadic, pair_length, matched, Nat.min_self, ← pairs variadic]
  refine ⟨variadic, simple, rfl, rfl, ?_⟩
  refine (tags_demands (pairs variadic) matched.symm).2 ⟨fun d member => ?_, tagged⟩
  rw [demands] at member
  obtain ⟨directive, inside, rfl⟩ := List.mem_map.1 member
  exact (plain directive inside).2.2.2.2

theorem safeEdits?_isSome_iff :
    (c.check source).safeEdits?.isSome = true ↔ ∃ f, (c.check source).IsEligible f := by
  constructor
  · intro turned
    unfold Verdict.safeEdits? at turned
    split at turned
    · rename_i tagged
      exact eligible_of_tags? tagged
    · cases turned
  · rintro ⟨f, eligible⟩
    obtain ⟨tags, tagged, _⟩ := tags?_of_eligible eligible
    obtain ⟨a, place, _⟩ := check_format eligible.format
    rw [Verdict.safeEdits?, eligible.format, check_call, place, tagged]
    rfl

end Call

namespace Places.Verdicts

variable {places : Places} {v v' : Verdict}

/-- Casts of a wrong type are no errors. -/
theorem hasErrors_remarks (ds : List Diagnostic) :
    Diagnostic.hasErrors (ds.filter (·.problem ≠ .typeMismatch)) = Diagnostic.hasErrors ds := by
  rw [Diagnostic.hasErrors, Diagnostic.hasErrors, List.any_filter]
  congr 1
  funext d
  by_cases mismatch : d.problem = .typeMismatch
  · simp [Diagnostic.isError, Diagnostic.severity, mismatch, Problem.severity]
  · simp [mismatch]

theorem hasErrors (like : places.Verdicts v v') : v'.hasErrors = v.hasErrors := by
  have same := like.remarks
  rw [Verdict.hasErrors, Verdict.hasErrors, ← hasErrors_remarks v.diagnostics,
    ← hasErrors_remarks v'.diagnostics]
  have errors := map_eq_of_forall₂ (f := Diagnostic.isError) (g := Diagnostic.isError)
    (fun d d' here => by
      rw [Diagnostic.isError, Diagnostic.isError, Diagnostic.severity, Diagnostic.severity,
        here.problem]) same
  have found := congrArg (List.any · id) errors
  simpa only [Diagnostic.hasErrors, List.any_map, Function.id_comp] using found

theorem isEligible_iff (like : places.Verdicts v v') {f f' : FormatString}
    (spelled : places.Formats f f') (known : v.format = some f) (known' : v'.format = some f') :
    v.IsEligible f ↔ v'.IsEligible f' := by
  have trailing : v'.call.trailingArguments.length = v.call.trailingArguments.length := by
    simp only [Call.trailingArguments, List.length_drop, like.count, like.printer]
  have directives : f'.directives.map Prod.fst = f.directives.map Prod.fst :=
    map_eq_of_forall₂ (fun d d' same => same.1) spelled.directives
  have plain (g : FormatString) : (∀ d ∈ g.directives, d.1.flags = [] ∧ d.1.width = none ∧
      d.1.precision = none ∧ d.1.length = none ∧ d.1.conversion? ≠ some .count) ↔
      ∀ d ∈ g.directives.map Prod.fst, d.flags = [] ∧ d.width = none ∧
        d.precision = none ∧ d.length = none ∧ d.conversion? ≠ some .count := by
    rw [List.forall_mem_map]
  constructor
  · rintro ⟨_, variadic, clean, all, matched⟩
    refine ⟨known', like.printer ▸ variadic, like.hasErrors ▸ clean, ?_, ?_⟩
    · rwa [plain, directives, ← plain]
    · rw [trailing, matched, spelled.demands.length_eq]
  · rintro ⟨_, variadic, clean, all, matched⟩
    refine ⟨known, like.printer ▸ variadic, like.hasErrors ▸ clean, ?_, ?_⟩
    · rwa [plain, ← directives, ← plain]
    · rw [← trailing, matched, spelled.demands.length_eq]

/-- What is said about a call decides whether it is eligible. -/
theorem eligible (like : places.Verdicts v v') :
    (∃ f, v.IsEligible f) ↔ ∃ f, v'.IsEligible f := by
  have format := like.format
  generalize known : v.format = found at format
  generalize known' : v'.format = found' at format
  cases format with
  | none =>
      constructor
      · rintro ⟨f, eligible⟩
        rw [eligible.format] at known
        cases known
      · rintro ⟨f, eligible⟩
        rw [eligible.format] at known'
        cases known'
  | @some f f' spelled =>
      have same := like.isEligible_iff spelled known known'
      constructor
      · rintro ⟨g, eligible⟩
        have equal := eligible.format
        rw [known] at equal
        cases equal
        exact ⟨f', same.1 eligible⟩
      · rintro ⟨g, eligible⟩
        have equal := eligible.format
        rw [known'] at equal
        cases equal
        exact ⟨f, same.2 eligible⟩

end Places.Verdicts

end FormatLint
