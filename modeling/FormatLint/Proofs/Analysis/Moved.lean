import FormatLint.Proofs.Analysis.Relocation

/-!
A call that stands at other places in another text. If the text in front of its format is the same,
then what is known of it is the same at those places, advice included: `Call.check_relocate`.
-/

namespace FormatLint

variable {r : Relocation}

def Pair.relocate (r : Relocation) (p : Pair) : Pair :=
  ⟨p.argument.relocate r, p.demand.relocate r, p.cast.map (Cast.relocate r)⟩

def Verdict.relocate (r : Relocation) (v : Verdict) : Verdict where
  call := v.call.relocate r
  format := v.format.map (FormatString.relocate r)
  pairs := v.pairs.map (Pair.relocate r)
  diagnostics := v.diagnostics.map (Diagnostic.relocate r)

theorem Argument.relocated (r : Relocation) (a : Argument) : a.Relocated r (a.relocate r) :=
  ⟨a.span_relocate, a.relocate_code⟩

theorem Argument.relocated_map (r : Relocation) (arguments : List Argument) :
    List.Forall₂ (Argument.Relocated r) arguments (arguments.map (Argument.relocate r)) := by
  rw [List.forall₂_map_right_iff, List.forall₂_same]
  exact fun a _ => a.relocated r

theorem Argument.single?_relocate (a : Argument) :
    (a.relocate r).single? = a.single?.map (Token.relocate r) := by
  rw [single?, single?, relocate_code]
  rcases a.code with _ | ⟨t, _ | ⟨u, later⟩⟩ <;> rfl

namespace Call

variable (c : Call)

theorem relocated (r : Relocation) (c : Call) : c.Relocated r (c.relocate r) :=
  ⟨rfl, rfl, rfl, Argument.relocated_map r c.arguments⟩

theorem format?_relocate : (c.relocate r).format? = c.format?.map (Argument.relocate r) := by
  rw [format?, format?]
  exact List.getElem?_map

theorem trailingArguments_relocate : (c.relocate r).trailingArguments =
    c.trailingArguments.map (Argument.relocate r) := by
  rw [trailingArguments, trailingArguments, List.map_drop]
  rfl

theorem fixedArguments_relocate : (c.relocate r).fixedArguments =
    c.fixedArguments.map (Argument.relocate r) := by
  rw [fixedArguments, fixedArguments, List.map_take]
  rfl

theorem pair_relocate (demands : List Demand) (arguments : List Argument) :
    pair (demands.map (Demand.relocate r)) (arguments.map (Argument.relocate r)) =
      (pair demands arguments).map (Pair.relocate r) := by
  rw [pair, pair, List.zip_map, List.map_map, List.map_map]
  refine List.map_congr_left fun p _ => ?_
  simp only [Function.comp_apply, Prod.map, Pair.relocate, (p.1.relocated r).cast?]

/-- The same is known of a call at other places, if the text in front of its format is the same. -/
theorem check_relocate {source source' : Source}
    (steady : ∀ a ∈ c.arguments, ∀ t ∈ a.code, t.kind = .string → t.Steady r)
    (written : ∀ a ∈ c.arguments,
      (c.relocate r).start source' (a.relocate r) = c.start source a) :
    (c.relocate r).check source' = (c.check source).relocate r := by
  have trailing := Argument.relocated_map r c.trailingArguments
  unfold check
  rw [format?_relocate]
  cases format : c.format? with
  | none =>
      simp only [Option.map_none, Verdict.relocate, relocate, List.length_map]
      rfl
  | some a =>
      have member : a ∈ c.arguments := List.mem_of_getElem? format
      simp only [Option.map_some]
      rw [FormatString.ofArgument?_relocated (a.relocated r) (steady a member)]
      cases FormatString.ofArgument? a with
      | none =>
          simp only [Option.map_none]
          rw [written a member, Argument.span_relocate, Argument.single?_relocate]
          have name : ((a.single?.map (Token.relocate r)).filter (·.kind = .ident)).map (·.lexeme) =
              (a.single?.filter (·.kind = .ident)).map (·.lexeme) := by
            cases a.single? with
            | none => rfl
            | some t => by_cases ident : t.kind = .ident <;> simp [Option.filter_some, ident]
          rw [name]
          rfl
      | some f =>
          simp only [Option.map_some]
          rw [show (c.relocate r).printer = c.printer from rfl]
          split
          · have mismatches := mismatches_relocated trailing f.demands
            have count := countDiagnostics_relocated (c.relocated r) f f.demands trailing
            rw [pair_relocate] at mismatches
            rw [FormatString.demands_relocate, trailingArguments_relocate, pair_relocate, mismatches,
              count, FormatString.diagnostics_relocate, ← List.map_append, ← List.map_append]
            rfl
          · rw [FormatString.diagnostics_relocate]
            rfl

end Call

end FormatLint
