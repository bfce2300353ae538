import FormatLint.Proofs.Analysis.Exact
import FormatLint.Proofs.Analysis.Moved
import FormatLint.Proofs.Edit.Below
import FormatLint.Proofs.Revision.Apart

/-!
The edits of a call that stands further back in another text, `Verdict.castEdits_relocate` and
`Verdict.safeEdits?_relocate`. All edits of a file stand inside it: `Analysis.castEdits_inside` and
`Analysis.safeEdits_inside`.
-/

namespace FormatLint

/-- All offsets grow by the same number. -/
def Relocation.Shifts (r : Relocation) (n : Nat) : Prop := ∀ p, (r.place p).offset = p.offset + n

theorem Relocation.below_shifts (text : Text) : (below text).Shifts (text.length + 1) :=
  fun _ => Nat.add_assoc _ _ _

variable {r : Relocation} {n : Nat}

theorem Argument.offsets_relocate (shifts : r.Shifts n) (a : Argument) :
    (a.relocate r).span.start.offset = a.span.start.offset + n ∧
      (a.relocate r).span.stop.offset = a.span.stop.offset + n := by
  rw [span_relocate]
  exact ⟨shifts _, shifts _⟩

theorem Argument.castEdits_relocate (shifts : r.Shifts n) (a : Argument) (cType : Text) :
    (a.relocate r).castEdits cType = (a.castEdits cType).map (Edit.shift n) := by
  obtain ⟨start, stop⟩ := a.offsets_relocate shifts
  rw [castEdits, castEdits, start, stop]
  rfl

theorem Pair.relocate_isExplicit (p : Pair) : (p.relocate r).isExplicit = p.isExplicit := by
  obtain ⟨argument, demand, cast⟩ := p
  cases cast <;> rfl

theorem FormatString.segments_relocate (f : FormatString) : (f.relocate r).segments = f.segments := by
  have same (parts : List PlacedPiece) :
      stretches (parts.map (PlacedPiece.relocate r)) = stretches parts := by
    induction parts with
    | nil => rfl
    | cons part later ih =>
        rw [List.map_cons, stretches, stretches, ih]
        rfl
  rw [segments, segments, relocate, same]

namespace Verdict

variable (v : Verdict)

theorem fixedCastEdits_relocate (shifts : r.Shifts n) :
    (v.relocate r).fixedCastEdits = v.fixedCastEdits.map (Edit.shift n) := by
  have arguments : (v.relocate r).call.fixedArguments =
      v.call.fixedArguments.map (Argument.relocate r) := v.call.fixedArguments_relocate
  rw [fixedCastEdits, fixedCastEdits, arguments, List.map_flatMap, List.zip_map_left,
    List.flatMap_map]
  refine List.flatMap_congr fun cast _ => ?_
  simp only [Prod.map, id, (cast.1.relocated r).cast?, Option.isNone_map,
    Argument.castEdits_relocate shifts]
  split <;> rfl

theorem pairCastEdits_relocate (shifts : r.Shifts n) :
    (v.relocate r).pairCastEdits = v.pairCastEdits.map (Edit.shift n) := by
  rw [pairCastEdits, pairCastEdits, List.map_flatMap]
  change (v.pairs.map (Pair.relocate r)).flatMap _ = _
  rw [List.flatMap_map]
  refine List.flatMap_congr fun p _ => ?_
  have cType : (p.relocate r).demand.cType? = p.demand.cType? := rfl
  rw [cType, p.relocate_isExplicit]
  cases p.demand.cType? with
  | none => rfl
  | some cType =>
      dsimp only
      split
      · rfl
      · exact p.argument.castEdits_relocate shifts cType

theorem castEdits_relocate (shifts : r.Shifts n) :
    (v.relocate r).castEdits = v.castEdits.map (Edit.shift n) := by
  have aborted : (v.relocate r).isAborted = v.isAborted := by
    rw [isAborted, isAborted]
    exact Option.isNone_map
  rw [castEdits, castEdits, aborted, fixedCastEdits_relocate v shifts, pairCastEdits_relocate v shifts]
  split
  · rfl
  · rw [List.map_append]

theorem chainEdits_relocate (shifts : r.Shifts n) (stop start : Nat) (lead : Text)
    (tagged : List (Argument × Text × Text)) :
    chainEdits (stop + n) (start + n) lead (tagged.map fun t => (t.1.relocate r, t.2)) =
      (chainEdits stop start lead tagged).map (Edit.shift n) := by
  induction tagged generalizing start lead with
  | nil => rfl
  | cons t later ih =>
      obtain ⟨argument, tag, segment⟩ := t
      obtain ⟨begins, ends⟩ := argument.offsets_relocate shifts
      rw [List.map_cons, chainEdits, chainEdits, List.map_cons, begins, ends, ih]
      rfl

theorem tags?_relocate : (v.relocate r).tags? = v.tags? := by
  obtain ⟨c, format, pairs, diagnostics⟩ := v
  have errors : Diagnostic.hasErrors (diagnostics.map (Diagnostic.relocate r)) =
      Diagnostic.hasErrors diagnostics := by
    rw [Diagnostic.hasErrors, List.any_map]
    rfl
  have trailing := c.trailingArguments_relocate (r := r)
  cases format with
  | none => rfl
  | some f =>
      simp only [tags?, relocate, Option.map_some, hasErrors, errors, trailing, List.length_map,
        FormatString.directives_relocate, FormatString.demands_relocate, List.all_map,
        List.mapM_map]
      rfl

theorem safeEdits?_relocate (shifts : r.Shifts n) :
    (v.relocate r).safeEdits? = v.safeEdits?.map (List.map (Edit.shift n)) := by
  have format : (v.relocate r).format = v.format.map (FormatString.relocate r) := rfl
  have argument : (v.relocate r).call.format? = v.call.format?.map (Argument.relocate r) :=
    v.call.format?_relocate
  have trailing : (v.relocate r).call.trailingArguments =
      v.call.trailingArguments.map (Argument.relocate r) := v.call.trailingArguments_relocate
  rw [safeEdits?, safeEdits?, format, argument, tags?_relocate]
  cases v.format with
  | none => rfl
  | some f =>
      cases v.call.format? with
      | none => rfl
      | some a =>
          cases v.tags? with
          | none => rfl
          | some tags =>
              have chain (lead : Text) (more : List (Text × Text)) :=
                chainEdits_relocate shifts v.call.closing.span.stop.offset a.span.start.offset lead
                  (v.call.trailingArguments.zip more)
              simp only [Option.map_some, FormatString.segments_relocate, trailing,
                List.zip_map_left, List.map_cons, (a.offsets_relocate shifts).1]
              have closing : (v.relocate r).call.closing.span.stop.offset =
                  v.call.closing.span.stop.offset + n := shifts _
              rw [closing]
              exact congrArg some (congrArg₂ List.cons
                (congrArg₂ (fun start stop => Edit.mk start stop v.call.printer.safeName)
                  (shifts _) (shifts _)) (chain _ _))

end Verdict

theorem Token.inside_of_tokenize {source : Source} {tokens : List Token}
    (read : tokenize source.name source.content = .ok tokens) :
    ∀ t ∈ tokens, t.span.start.offset ≤ source.content.length ∧
      t.span.stop.offset ≤ source.content.length := by
  intro t member
  obtain ⟨front, begins, span⟩ := span_of_tokenize read t member
  have length := begins.length_le
  have zero : Position.first.offset = 0 := rfl
  rw [List.length_append] at length
  rw [span, Position.after_offset, Position.after_offset, List.length_append]
  omega

namespace Analysis

variable {source : Source} {tokens : List Token} {table : PrinterTable}

/-- The edits that write out casts stand inside the file. -/
theorem castEdits_inside (read : Token.tokenize source.name source.content = .ok tokens) :
    ∀ e ∈ (source.analyze table).verdicts.flatMap (·.castEdits),
      e.start ≤ e.stop ∧ e.stop ≤ source.content.length := by
  intro e member
  have insertion := (castEdits_starts source table).2 e member
  refine ⟨Nat.le_of_eq insertion, ?_⟩
  obtain ⟨v, listed, edit⟩ := List.mem_flatMap.1 member
  rw [v.castEdits_eq] at edit
  obtain ⟨cast, made, edit⟩ := List.mem_flatMap.1 edit
  have argument : cast.1 ∈ (source.analyze table).arguments :=
    (casts_sublist source table).subset
      (List.mem_map_of_mem (List.mem_flatMap.2 ⟨v, listed, made⟩))
  obtain ⟨gap, lexical, eof, rfl, ends, _⟩ := Token.laid_of_tokenize read
  have inside := (arguments_contiguous read ends cast.1 argument).subset
  have first := Token.inside_of_tokenize read _
    (List.mem_append_left _ (inside (List.head_mem cast.1.nonempty)))
  have last := Token.inside_of_tokenize read _
    (List.mem_append_left _ (inside (List.getLast_mem cast.1.nonempty)))
  simp only [Argument.castEdits, List.mem_cons, List.not_mem_nil, or_false] at edit
  rcases edit with rfl | rfl
  · exact first.1
  · exact last.2

/-- The edits that turn calls into safe ones stand inside the file. -/
theorem safeEdits_inside (read : Token.tokenize source.name source.content = .ok tokens) :
    ∀ e ∈ (source.analyze table).safeEdits,
      e.start ≤ e.stop ∧ e.stop ≤ source.content.length := by
  intro e member
  refine ⟨Nat.le_of_lt ((safeEdits_apart source table).2 e member), ?_⟩
  obtain ⟨v, found, edit⟩ := List.mem_flatMap.1 member
  rw [verdicts_eq read] at found
  obtain ⟨s, site, verdict⟩ := List.mem_filterMap.1 found
  obtain ⟨slots, after, edits, lists, _, rfl, turned, inside⟩ := site_of_safeEdits verdict edit
  obtain ⟨whole, _⟩ := Site.mem_ofTokens_iff.1 site
  obtain ⟨gap, lexical, eof, rfl, ends, _, _, laid, _⟩ := Token.laid_of_tokenize read
  obtain ⟨rest, equal⟩ := lists.lexical whole ends
  have ordered := laid.ordered
  rw [equal, List.append_assoc] at ordered
  have row := (Site.safeEdits_row lists.listed (ordered.sublist
    ((List.sublist_append_left _ _).trans (List.sublist_append_right _ _))) turned).1
  obtain ⟨inner, closes, _⟩ := lists.listed.closing_eq s.opening
  have closing : Slot.closing s.opening slots ∈ lexical ++ [eof] := by
    rw [← whole, lists.tokens_eq, Site.written, closes]
    simp
  exact (row.bounds e inside).2.trans (Token.inside_of_tokenize read _ closing).2

end Analysis

end FormatLint
