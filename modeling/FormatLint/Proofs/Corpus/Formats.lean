import FormatLint.Proofs.Analysis.Errors
import FormatLint.Proofs.Corpus.Arguments

/-!
The formats of sample calls. Their literal text has no directive, so the directives are those of the
items in their order, and each demands one argument of the type that its specimen is cast to:
`Corpus.SampleCall.Proper.demands_fit`.
-/

namespace FormatLint

namespace Piece

/-- A text that demands nothing in front of another one adds no directive. -/
theorem directives_behind {t : Text} {n : Nat} (units : Units t n) (zero : n = 0) (rest : Text) :
    (ofText (t ++ rest)).filterMap directive? = (ofText rest).filterMap directive? := by
  induction units with
  | nil => rfl
  | escape _ ih =>
      rw [List.cons_append, List.cons_append, ofText_escape, filterMap_consText, ih zero]
  | plain noPercent noSlash _ ih =>
      rw [List.cons_append, ofText_plain noPercent noSlash, filterMap_consText, ih zero]
  | percent _ ih =>
      rw [List.cons_append, List.cons_append, ofText_percent]
      exact ih zero
  | directive => simp [Directive.demandCount] at zero

theorem units_plain {t rest : Text} (plain : ∀ g ∈ t, g ≠ .char '%' ∧ g ≠ .char '\\')
    (later : Units rest 0) : Units (t ++ rest) 0 := by
  induction t with
  | nil => exact later
  | cons g t ih =>
      obtain ⟨⟨noPercent, noSlash⟩, others⟩ := List.forall_mem_cons.1 plain
      exact .plain noPercent noSlash (ih others)

end Piece

theorem Enclosed.of_plain {t : Text}
    (plain : ∀ g ∈ t, g ≠ .char '\\' ∧ g ≠ .char '"' ∧ g ≠ .char '\n') : Enclosed t := by
  induction t with
  | nil => exact .nil
  | cons g t ih =>
      obtain ⟨⟨noSlash, noQuote, noFeed⟩, others⟩ := List.forall_mem_cons.1 plain
      exact .plain noSlash noQuote noFeed (ih others)

theorem Demand.ofDirective_single {d : Directive} (single : d.demandCount = 1) (span : Span) :
    ofDirective d span = [⟨d, span, .value⟩] := by
  unfold Directive.demandCount at single
  unfold ofDirective
  split at single <;> split at single <;> simp_all

namespace Corpus

theorem fillerGlyphs_plain : ∀ g ∈ fillerGlyphs,
    g ≠ .char '%' ∧ g ≠ .char '\\' ∧ g ≠ .char '"' ∧ g ≠ .char '\n' := by
  decide

theorem Filler.Proper.units {f : Filler} (proper : f.Proper) : Piece.Units f.text 0 := by
  have quotation : Piece.Units (if f.quotation then Text.ofString "\\\"quoted\\\"" else []) 0 := by
    split
    · exact .escape (Piece.units_plain (t := "quoted") (by decide) (.escape .nil))
    · exact .nil
  have percent : Piece.Units ((if f.percent then Text.ofString "100%%" else []) ++
      (if f.quotation then Text.ofString "\\\"quoted\\\"" else [])) 0 := by
    split
    · exact Piece.units_plain (t := "100") (by decide) (.percent quotation)
    · exact quotation
  have newline : Piece.Units ((if f.newline then Text.ofString "\\n" else []) ++
      ((if f.percent then Text.ofString "100%%" else []) ++
        (if f.quotation then Text.ofString "\\\"quoted\\\"" else []))) 0 := by
    split
    · exact .escape percent
    · exact percent
  rw [Filler.text, List.append_assoc, List.append_assoc]
  refine Piece.units_plain (fun g member => ?_) newline
  obtain ⟨noPercent, noSlash, _⟩ := fillerGlyphs_plain g (proper g member)
  exact ⟨noPercent, noSlash⟩

theorem Filler.Proper.enclosed {f : Filler} (proper : f.Proper) : Enclosed f.text := by
  have plain : Enclosed f.plain :=
    .of_plain fun g member => (fillerGlyphs_plain g (proper g member)).2
  have escapes : Enclosed (Text.ofString "\\n") ∧ Enclosed (Text.ofString "\\\"quoted\\\"") := by
    refine ⟨.escape .nil, .escape ?_⟩
    have word : Enclosed (Text.ofString "quoted") := .of_plain (by decide)
    exact word.append (.escape .nil)
  refine ((plain.append ?_).append ?_).append ?_
  · split
    · exact escapes.1
    · exact .nil
  · split
    · exact .of_plain (by decide)
    · exact .nil
  · split
    · exact escapes.2
    · exact .nil

def Specimen.reading (s : Specimen) : Directive := (Directive.read s.directive.tail).1

/-- The directive of a specimen is read whole, demands one argument, and reads the type to which the
argument may be cast. -/
theorem specimens_reading : ∀ s ∈ specimens, s.reading.text = s.directive ∧
    s.reading.isInvalid = false ∧ s.reading.demandCount = 1 ∧ s.reading.cType? = some s.cType ∧
      ∀ g ∈ s.directive, g ≠ .char '\\' ∧ g ≠ .char '"' ∧ g ≠ .char '\n' := by
  decide

/-- The directive is one for the item: it reads one argument, of the family of the cast. -/
structure Item.Fits (i : Item) (d : Directive) : Prop where
  single : d.demandCount = 1
  family : d.family? = CType.family? i.specimen.cType
  known : d.isInvalid = false

theorem Item.Proper.directives {i : Item} (proper : i.Proper) (rest : Text) :
    ∃ d, i.Fits d ∧ (Piece.ofText (i.formatText ++ rest)).filterMap Piece.directive? =
      d :: (Piece.ofText rest).filterMap Piece.directive? := by
  obtain ⟨written, known, single, type, _⟩ := specimens_reading _ proper.specimen
  have valid : i.specimen.reading.Valid := Directive.valid_of_read known
  obtain ⟨d, read, converts, demands⟩ := Piece.ofText_valid valid rest
  have demanded : Demand.cType? ⟨i.specimen.reading, default, .value⟩ = some i.specimen.cType := type
  refine ⟨d, ⟨demands.trans single, ?_, ?_⟩, ?_⟩
  · rw [Directive.family?, converts]
    exact (CType.demand_plain demanded).2.1
  · rw [Directive.isInvalid, converts]
    exact known
  · rw [Item.formatText, List.append_assoc, Piece.directives_behind proper.filler.units rfl,
      ← written, read]
    rfl

theorem directives_items {items : List Item} (proper : ∀ i ∈ items, i.Proper) (rest : Text) :
    ∃ ds, List.Forall₂ Item.Fits items ds ∧
      (Piece.ofText (items.flatMap Item.formatText ++ rest)).filterMap Piece.directive? =
        ds ++ (Piece.ofText rest).filterMap Piece.directive? := by
  induction items with
  | nil => exact ⟨[], .nil, rfl⟩
  | cons i later ih =>
      obtain ⟨here, others⟩ := List.forall_mem_cons.1 proper
      obtain ⟨ds, fit, read⟩ := ih others
      obtain ⟨d, fits, first⟩ := here.directives (later.flatMap Item.formatText ++ rest)
      refine ⟨d :: ds, .cons fits fit, ?_⟩
      rw [List.flatMap_cons, List.append_assoc, first, read, List.cons_append]

namespace SampleCall

variable {c : SampleCall}

theorem Proper.enclosed (proper : c.Proper) : Enclosed c.formatText := by
  rw [formatText, List.flatMap_def]
  refine (Enclosed.flatten fun body member => ?_).append proper.filler.enclosed
  obtain ⟨i, listed, rfl⟩ := List.mem_map.1 member
  have item := proper.items i listed
  obtain ⟨_, _, _, _, plain⟩ := specimens_reading _ item.specimen
  exact item.filler.enclosed.append (.of_plain plain)

theorem Proper.directives (proper : c.Proper) : List.Forall₂ Item.Fits c.items
    ((Piece.ofText c.formatText).filterMap Piece.directive?) := by
  obtain ⟨ds, fit, read⟩ := directives_items proper.items c.filler.text
  have behind := Piece.directives_behind proper.filler.units rfl []
  rw [List.append_nil] at behind
  have whole : (Piece.ofText c.formatText).filterMap Piece.directive? = ds := by
    rw [formatText, read, behind]
    simp [Piece.ofText]
  rwa [whole]

/-- A format that spells this text has nothing invalid in it, and demands one argument for each item,
of the family that it may be cast to. -/
theorem Proper.demands_fit (proper : c.Proper) {f : FormatString}
    (spelled : f.directives.map Prod.fst =
      (Piece.ofText c.formatText).filterMap Piece.directive?) :
    f.diagnostics = [] ∧ List.Forall₂ (fun i d => d.family? = CType.family? i.specimen.cType)
      c.items f.demands := by
  have fit := proper.directives
  rw [← spelled, List.forall₂_map_right_iff] at fit
  constructor
  · rw [FormatString.diagnostics, List.map_eq_nil_iff, List.filter_eq_nil_iff]
    intro d listed
    obtain ⟨i, _, fits⟩ := forall₂_exists fit listed
    simp [fits.known]
  · have single : f.demands = f.directives.map fun d => ⟨d.1, d.2, .value⟩ := by
      rw [FormatString.demands, List.map_eq_flatMap]
      refine List.flatMap_congr fun d listed => ?_
      obtain ⟨i, _, fits⟩ := forall₂_exists fit listed
      exact Demand.ofDirective_single fits.single d.2
    rw [single, List.forall₂_map_right_iff]
    exact fit.imp fun i d fits => fits.family

end SampleCall

end Corpus

end FormatLint
