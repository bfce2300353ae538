import FormatLint.Proofs.Cast.Typed
import FormatLint.Proofs.Revision.Eligible
import FormatLint.Proofs.Revision.Typecast

/-!
A call whose arguments get their casts. `Verdict.castTypes` lists for each argument the type that it
is cast to. Nothing changes in what is said about the call but the casts: `Call.recast_like`.
-/

namespace FormatLint

/-- The type that the argument of a pair has to be cast to. -/
def Pair.castType? (p : Pair) : Option Text := if p.isExplicit then none else p.demand.cType?

/-- The type that an argument before the format has to be cast to. -/
def Argument.fixedCast? (a : Argument) (cType : Text) : Option Text :=
  if a.castType?.isNone then some cType else none

/-- For each argument the type that it has to be cast to, as far as any is. -/
def Verdict.castTypes (v : Verdict) : List (Option Text) :=
  if v.isAborted then []
  else
    List.zipWith Argument.fixedCast? v.call.fixedArguments v.call.printer.fixedTypes ++
      none :: v.pairs.map Pair.castType?

namespace Argument

/-- The argument, behind a cast if a type is given. -/
def recast (o : Nat) (a : Argument) (cType : Option Text) : Argument := cType.elim a (a.castTo o)

/-- The arguments, each behind the cast that is listed for it. -/
def recastAll (o : Nat) : List Argument → List (Option Text) → List Argument
  | a :: later, cType :: types => a.recast o cType :: recastAll o later types
  | later, [] => later
  | [], _ => []

variable {o : Nat}

@[simp] theorem recastAll_nil (arguments : List Argument) : recastAll o arguments [] = arguments := by
  cases arguments <;> rfl

theorem recastAll_append {front : List Argument} {types : List (Option Text)}
    (same : types.length = front.length) (back : List Argument) (more : List (Option Text)) :
    recastAll o (front ++ back) (types ++ more) =
      recastAll o front types ++ recastAll o back more := by
  induction front generalizing types with
  | nil =>
      rw [List.eq_nil_of_length_eq_zero same]
      rfl
  | cons a front ih =>
      obtain ⟨cType, types, rfl⟩ := List.exists_cons_of_length_eq_add_one same
      simp only [List.cons_append, recastAll, ih (Nat.succ.inj same)]

theorem recastAll_length (arguments : List Argument) (types : List (Option Text)) :
    (recastAll o arguments types).length = arguments.length := by
  fun_induction recastAll o arguments types <;> simp_all

theorem drop_recastAll (arguments : List Argument) {types : List (Option Text)} {n : Nat}
    (more : types.length ≤ n) : (recastAll o arguments types).drop n = arguments.drop n := by
  induction arguments generalizing types n with
  | nil => cases types <;> rfl
  | cons a arguments ih =>
      cases types with
      | nil => rfl
      | cons cType types =>
          cases n with
          | zero => simp at more
          | succ n => exact ih (Nat.le_of_succ_le_succ more)

end Argument

namespace Call

variable {c : Call} {source source' : Source} {o : Nat}

theorem check_pair (c : Call) (source : Source) :
    ∃ demands, (c.check source).pairs = pair demands c.trailingArguments := by
  have unpaired : [] = pair [] c.trailingArguments := by simp [pair]
  unfold check
  split
  · exact ⟨[], unpaired⟩
  · split
    · exact ⟨[], unpaired⟩
    · split
      · exact ⟨_, rfl⟩
      · exact ⟨[], unpaired⟩

theorem fixedArguments_length {f : FormatString} (known : (c.check source).format = some f) :
    c.fixedArguments.length = c.printer.fixedTypes.length := by
  obtain ⟨a, place, _⟩ := check_format known
  have present := (List.getElem?_eq_some_iff.1 place).1
  rw [fixedArguments, List.length_take, Printer.formatIndex]
  exact Nat.min_eq_left (Nat.le_of_lt present)

theorem pairs_castArguments (demands : List Demand) (arguments : List Argument) :
    ((pair demands arguments).filterMap fun p =>
      if p.isExplicit then none else p.demand.cType?.map fun cType => (p.argument, cType)) =
    (arguments.zip ((pair demands arguments).map Pair.castType?)).filterMap fun cast =>
      cast.2.map (cast.1, ·) := by
  have each (p : Pair) : (if p.isExplicit then none
      else p.demand.cType?.map fun cType => (p.argument, cType)) =
        p.castType?.map fun cType => (p.argument, cType) := by
    unfold Pair.castType?
    split <;> rfl
  simp only [each]
  induction arguments generalizing demands with
  | nil => simp [pair]
  | cons a arguments ih =>
      cases demands with
      | nil => rfl
      | cons d demands =>
          have whole : pair (d :: demands) (a :: arguments) =
              ⟨a, d, a.cast?⟩ :: pair demands arguments := rfl
          rw [whole, List.map_cons, List.zip_cons_cons, List.filterMap_cons, List.filterMap_cons, ih]

/-- The arguments for which a type is listed are those that get a cast. -/
theorem castArguments_eq (c : Call) (source : Source) :
    (c.check source).castArguments =
      (c.arguments.zip (c.check source).castTypes).filterMap fun cast =>
        cast.2.map (cast.1, ·) := by
  unfold Verdict.castArguments Verdict.castTypes
  cases known : (c.check source).format with
  | none => simp [Verdict.isAborted, known]
  | some f =>
      have length := fixedArguments_length known
      obtain ⟨a, place, _⟩ := check_format known
      obtain ⟨demands, pairs⟩ := check_pair c source
      simp only [Verdict.isAborted, known, Option.isNone_some, Bool.false_eq_true, if_false]
      rw [check_call, pairs]
      conv => rhs; rw [arguments_eq, place, Option.toList_some, List.append_assoc]
      rw [List.zip_append (by simp [length]), List.filterMap_append, List.singleton_append,
        List.zip_cons_cons]
      congr 1
      · generalize c.fixedArguments = front
        generalize c.printer.fixedTypes = types
        induction front generalizing types with
        | nil => rfl
        | cons a front ih =>
            cases types with
            | nil => rfl
            | cons cType types =>
                rw [List.zip_cons_cons, List.filter_cons, ih, List.zipWith_cons_cons,
                  List.zip_cons_cons, List.filterMap_cons]
                cases cast : a.cast? <;> simp [Argument.fixedCast?, Argument.castType?, cast]
      · rw [List.filterMap_cons]
        exact pairs_castArguments _ _

/-- The call with its arguments behind the casts that they get. -/
def recast (o : Nat) (source : Source) (c : Call) : Call :=
  { c with arguments := Argument.recastAll o c.arguments (c.check source).castTypes }

theorem recast_aborted (aborted : (c.check source).format = none) : c.recast o source = c := by
  simp [recast, Verdict.castTypes, Verdict.isAborted, aborted]

/-- The arguments of a call that has a format, each behind its cast. -/
theorem recast_parts {f : FormatString} (known : (c.check source).format = some f) :
    (c.recast o source).fixedArguments = Argument.recastAll o c.fixedArguments
        (List.zipWith Argument.fixedCast? c.fixedArguments c.printer.fixedTypes) ∧
      (c.recast o source).format? = c.format? ∧
      (c.recast o source).trailingArguments = Argument.recastAll o c.trailingArguments
        ((c.check source).pairs.map Pair.castType?) := by
  have length := fixedArguments_length known
  obtain ⟨a, place, _⟩ := check_format known
  have whole := c.arguments_eq
  rw [place, Option.toList_some, List.append_assoc, List.singleton_append] at whole
  have made : (c.recast o source).arguments =
      Argument.recastAll o c.fixedArguments
          (List.zipWith Argument.fixedCast? c.fixedArguments c.printer.fixedTypes) ++
        a :: Argument.recastAll o c.trailingArguments ((c.check source).pairs.map Pair.castType?) := by
    rw [recast]
    dsimp only
    rw [Verdict.castTypes, Verdict.isAborted, known, check_call]
    conv => lhs; rw [whole]
    simp only [Option.isNone_some, Bool.false_eq_true, if_false]
    rw [Argument.recastAll_append (by simp [length])]
    rfl
  have front : (Argument.recastAll o c.fixedArguments
      (List.zipWith Argument.fixedCast? c.fixedArguments c.printer.fixedTypes)).length =
        c.printer.formatIndex := by
    rw [Argument.recastAll_length, length]
    rfl
  have printer : (c.recast o source).printer = c.printer := rfl
  refine ⟨?_, ?_, ?_⟩
  · rw [fixedArguments, made, printer, List.take_left' front]
  · rw [format?, made, printer, place, ← front, List.getElem?_append_right (Nat.le_refl _)]
    simp
  · rw [trailingArguments, made, printer, ← front, List.drop_append]
    simp

/-- Nothing but the casts of its arguments changes in what is known about a call. -/
theorem recast_calls (c : Call) : Places.same.Calls c (c.recast o source) := by
  cases known : (c.check source).format with
  | none =>
      rw [recast_aborted known]
      exact Places.calls_refl c
  | some f =>
      obtain ⟨_, format, trailing⟩ := recast_parts (o := o) known
      refine ⟨rfl, rfl, Argument.recastAll_length _ _, ?_, ?_⟩
      · rw [format]
        cases c.format? with
        | none => exact .none
        | some a => exact .some (Places.arguments_refl a)
      · intro a place g spelled variadic
        obtain ⟨a', place', spelled', pairs⟩ := check_format known
        rw [Option.mem_def.1 place] at place'
        cases place'
        rw [Option.mem_def.1 spelled] at spelled'
        cases spelled'
        rw [trailing, Argument.drop_recastAll _ (by
          rw [List.length_map, pairs variadic, pair_length]
          exact Nat.min_le_right _ _)]
        exact List.forall₂_same.2 fun _ _ => rfl

theorem recast_like (c : Call) :
    Places.same.Verdicts (c.check source) ((c.recast o source).check source') :=
  check_like (recast_calls c)

theorem pairs_of_aborted {c : Call} (missing : (c.check source).format = none) :
    (c.check source).pairs = [] := by
  unfold check at missing ⊢
  split at missing
  · rfl
  · split at missing
    · rfl
    · split at missing <;> cases missing

theorem pair_recastAll (demands : List Demand) (arguments : List Argument) :
    List.Forall₂ (fun p p' : Pair => p'.demand = p.demand ∧ p.cast = p.argument.cast? ∧
        p'.argument = p.argument.recast o p.castType? ∧ p'.cast = p'.argument.cast?)
      (pair demands arguments) (pair demands
        (Argument.recastAll o arguments ((pair demands arguments).map Pair.castType?))) := by
  induction arguments generalizing demands with
  | nil => exact .nil
  | cons a arguments ih =>
      cases demands with
      | nil => exact .nil
      | cons d demands => exact .cons ⟨rfl, rfl, rfl, rfl⟩ (ih demands)

theorem recast_pairs (c : Call) : List.Forall₂ (fun p p' : Pair => p'.demand = p.demand ∧
    p.cast = p.argument.cast? ∧ p'.argument = p.argument.recast o p.castType? ∧
      p'.cast = p'.argument.cast?)
    (c.check source).pairs ((c.recast o source).check source').pairs := by
  cases known : (c.check source).format with
  | none =>
      have unpaired := pairs_of_aborted known
      have like : Places.same.Verdicts (c.check source) ((c.recast o source).check source') :=
        recast_like c
      have demands := like.demands
      rw [unpaired] at demands ⊢
      rw [List.forall₂_nil_left_iff.1 demands]
      exact .nil
  | some f =>
      obtain ⟨_, format, trailing⟩ := recast_parts (o := o) known
      obtain ⟨a, place, spelled, _⟩ := check_format known
      rw [check, check, format, place]
      dsimp only
      rw [spelled]
      dsimp only
      have printer : (c.recast o source).printer = c.printer := rfl
      rw [printer]
      split
      · rename_i variadic
        have pairs : (c.check source).pairs = pair f.demands c.trailingArguments := by
          obtain ⟨_, _, spelled', pairs⟩ := check_format known
          exact pairs variadic
        rw [trailing, pairs]
        exact pair_recastAll _ _
      · exact .nil

end Call

end FormatLint
