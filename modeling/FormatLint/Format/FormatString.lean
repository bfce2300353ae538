import FormatLint.Diagnostic.Catalogue
import FormatLint.Format.Content
import FormatLint.Format.Piece

/-!
Format strings: the pieces of a format argument with their places, the arguments that its directives
demand, and the literal text between those directives.
-/

namespace FormatLint

/-- A piece of a format, with the offset in the content and the span in the source at which it
stands. -/
structure PlacedPiece where
  piece : Piece
  start : Nat
  span : Span
  deriving DecidableEq

namespace PlacedPiece

def stop (p : PlacedPiece) : Nat := p.start + p.piece.source.length

def directive? (p : PlacedPiece) : Option (Directive × Span) :=
  match p.piece with
  | .directive d => some (d, p.span)
  | _ => none

/-- Pieces that follow each other in the content from the offset `start` on. -/
def place (whole : Span) (start : Nat) (content : List Located) : List Piece → List PlacedPiece
  | [] => []
  | piece :: later =>
    let length := piece.source.length
    ⟨piece, start, Located.span whole (content.take length)⟩ ::
      place whole (start + length) (content.drop length) later

theorem place_pieces (whole : Span) (start : Nat) (content : List Located) (pieces : List Piece) :
    (place whole start content pieces).map (·.piece) = pieces := by
  induction pieces generalizing start content with
  | nil => rfl
  | cons piece later ih => simp [place, ih]

end PlacedPiece

/-- What a directive reads an argument for. -/
inductive Role where
  | width
  | precision
  | value
  deriving DecidableEq

def Role.name : Role → Text
  | .width => "width"
  | .precision => "precision"
  | .value => "value"

/-- An argument that a directive reads. -/
structure Demand where
  directive : Directive
  span : Span
  role : Role
  deriving DecidableEq

namespace Demand

/-- Widths and precisions are integers. A directive without a conversion reads a value of no
family. -/
def family? (d : Demand) : Option Family :=
  match d.role with
  | .value => d.directive.family?
  | _ => some .integer

def cType? (d : Demand) : Option Text :=
  match d.role with
  | .value => d.directive.cType?
  | _ => some "int"

/-- What a directive demands: its width and its precision if they are asterisks, then the value. -/
def ofDirective (directive : Directive) (span : Span) : List Demand :=
  (if directive.width = some .star then [⟨directive, span, .width⟩] else []) ++
    (if directive.precision = some .star then [⟨directive, span, .precision⟩] else []) ++
      [⟨directive, span, .value⟩]

end Demand

structure FormatString where
  content : List Located
  /-- The offsets in the content at which a literal after the first begins. -/
  breaks : List Nat
  span : Span
  parts : List PlacedPiece
  deriving DecidableEq

namespace FormatString

/-- The format that an argument spells out, if it is a literal. -/
def ofArgument? (a : Argument) : Option FormatString :=
  if a.isStringLiteral then
    let content := a.literalBodies.flatten
    some
      { content
        breaks := a.literalBreaks
        span := a.span
        parts := PlacedPiece.place a.span 0 content (Piece.ofText (Located.text content)) }
  else none

theorem ofArgument?_eq_none_iff {a : Argument} :
    ofArgument? a = none ↔ a.isStringLiteral = false := by
  unfold ofArgument?
  split <;> simp_all

def text (f : FormatString) : Text := Located.text f.content

def reconstruct (f : FormatString) : Text := Piece.flatten (f.parts.map (·.piece))

def directives (f : FormatString) : List (Directive × Span) :=
  f.parts.filterMap PlacedPiece.directive?

/-- The arguments behind the format that it reads, in order. -/
def demands (f : FormatString) : List Demand :=
  f.directives.flatMap fun (directive, span) => Demand.ofDirective directive span

def diagnostics (f : FormatString) : List Diagnostic :=
  (f.directives.filter (·.1.isInvalid)).map fun (directive, span) =>
    .invalidDirective span directive.text

/-- Glyphs of the content, each with its offset. -/
abbrev Stretch := List (Nat × Glyph)

/-- The stretch is put in front of the first one. -/
def consStretch (stretch : Stretch) : List Stretch → List Stretch
  | [] => [stretch]
  | first :: later => (stretch ++ first) :: later

/-- The literal glyphs before, between and behind the directives. An escaped percent sign counts as
one glyph, at the offset at which it begins. -/
def stretches : List PlacedPiece → List Stretch
  | [] => [[]]
  | part :: later =>
    match part.piece with
    | .text glyphs =>
      consStretch (glyphs.zipIdx part.start |>.map Prod.swap) (stretches later)
    | .percent => consStretch [(part.start, .char '%')] (stretches later)
    | .directive _ => [] :: stretches later

/-- The inside of the literals that spell a stretch: the literal is closed and opened again where
the source began a new one, so that an escape sequence ends where it ended there. -/
def spell (breaks : List Nat) : Stretch → Text
  | [] => []
  | (_, g) :: rest =>
    g :: rest.flatMap fun (offset, next) =>
      if offset ∈ breaks then "\" \"" ++ [next] else [next]

/-- The literal text around the directives, one element more than there are directives. -/
def segments (f : FormatString) : List Text := (stretches f.parts).map (spell f.breaks)

theorem consStretch_length (stretch : Stretch) {stretches : List Stretch}
    (nonempty : stretches ≠ []) : (consStretch stretch stretches).length = stretches.length := by
  cases stretches with
  | nil => exact absurd rfl nonempty
  | cons => rfl

theorem stretches_ne_nil (parts : List PlacedPiece) : stretches parts ≠ [] := by
  cases parts with
  | nil => simp [stretches]
  | cons part later =>
    unfold stretches
    split
    · generalize stretches later = rest
      cases rest <;> simp [consStretch]
    · generalize stretches later = rest
      cases rest <;> simp [consStretch]
    · simp

theorem segments_length (f : FormatString) : f.segments.length = f.directives.length + 1 := by
  have counted (parts : List PlacedPiece) :
      (stretches parts).length = (parts.filterMap PlacedPiece.directive?).length + 1 := by
    induction parts with
    | nil => rfl
    | cons part later ih =>
      unfold stretches
      split <;> rename_i piece
      · rw [consStretch_length _ (stretches_ne_nil later), ih]
        simp [PlacedPiece.directive?, piece]
      · rw [consStretch_length _ (stretches_ne_nil later), ih]
        simp [PlacedPiece.directive?, piece]
      · simp [PlacedPiece.directive?, piece, ih]
  simpa [segments, directives] using counted f.parts

end FormatString

end FormatLint
