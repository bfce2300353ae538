import FormatLint.Proofs.Analysis.Errors
import FormatLint.Proofs.Format.Segments

/-!
How the pieces of a format tile its content. The content is read as units, a backslash with the
glyph behind it or a single other glyph. `FormatString.ofArgument?_partitioned` says that every
piece consists of units, and that the percent signs that are units of their own are those of the
specifiers.
-/

namespace FormatLint

namespace Text

/-- The units of a text: backslashes, each with the glyph behind it, and single other glyphs. -/
def units : Text → List Text
  | [] => []
  | [g] => [[g]]
  | g :: next :: rest =>
    if g = .char '\\' then [g, next] :: units rest else [g] :: units (next :: rest)

/-- The unit `u` of the text begins at the offset `n`. -/
def UnitAt (t : Text) (n : Nat) (u : Text) : Prop :=
  ∃ front back, units t = front ++ u :: back ∧ front.flatten.length = n

/-- No unit of the text begins before the offset `n` and ends behind it. -/
def IsBorder (t : Text) (n : Nat) : Prop :=
  ∃ front back, units t = front ++ back ∧ front.flatten.length = n

theorem units_plain {g : Glyph} {rest : Text} (noSlash : g ≠ .char '\\') :
    units (g :: rest) = [g] :: units rest := by
  cases rest with
  | nil => rfl
  | cons next rest => simp [units, noSlash]

theorem units_escape (g : Glyph) (rest : Text) :
    units (.char '\\' :: g :: rest) = [.char '\\', g] :: units rest := by
  simp [units]

theorem flatten_units (t : Text) : (units t).flatten = t := by
  fun_induction units t with
  | case1 => rfl
  | case2 => rfl
  | case3 next rest ih => simp [ih]
  | case4 g next rest noSlash ih => simp [ih]

/-- No unit is cut where a whole text ends. -/
theorem units_append {before : Text} (whole : Whole before) (after : Text) :
    units (before ++ after) = units before ++ units after := by
  induction whole with
  | nil => rfl
  | escape later ih =>
      rw [List.cons_append, List.cons_append, units_escape, units_escape, ih]
      rfl
  | plain noSlash later ih =>
      rw [List.cons_append, units_plain noSlash, units_plain noSlash, ih]
      rfl

theorem units_slashless {t : Text} (noSlash : .char '\\' ∉ t) : units t = t.map fun g => [g] := by
  induction t with
  | nil => rfl
  | cons g rest ih =>
      rw [List.mem_cons, not_or] at noSlash
      rw [units_plain (Ne.symm noSlash.1), ih noSlash.2]
      rfl

theorem UnitAt.le_length {t u : Text} {n : Nat} (unit : UnitAt t n u) :
    n + u.length ≤ t.length := by
  obtain ⟨front, back, whole, rfl⟩ := unit
  have lengths := congrArg (fun l : List Text => l.flatten.length) whole
  simp only [flatten_units, List.flatten_append, List.flatten_cons, List.length_append] at lengths
  omega

theorem UnitAt.mem {t u : Text} {n : Nat} (unit : UnitAt t n u) : u ∈ units t := by
  obtain ⟨front, back, whole, _⟩ := unit
  simp [whole]

theorem isBorder_append {before : Text} (whole : Whole before) (after : Text) :
    IsBorder (before ++ after) before.length :=
  ⟨units before, units after, units_append whole after, by rw [flatten_units]⟩

end Text

namespace Piece

def isText : Piece → Bool
  | .text _ => true
  | _ => false

def isInvalid : Piece → Bool
  | .directive d => d.isInvalid
  | _ => false

/-- The piece is made of units, one at least. A text has none that is a percent sign, and other
pieces have no backslash. -/
structure Aligned (p : Piece) : Prop where
  whole : Whole p.source
  nonempty : p.source ≠ []
  text : p.isText = true → [.char '%'] ∉ Text.units p.source
  specifier : p.isText = false → .char '\\' ∉ p.source

theorem Aligned.of_slashless {p : Piece} (specifier : p.isText = false) (nonempty : p.source ≠ [])
    (noSlash : .char '\\' ∉ p.source) : p.Aligned :=
  ⟨.of_slashless noSlash, nonempty, fun text => absurd text (by simp [specifier]),
    fun _ => noSlash⟩

theorem aligned_directive (t : Text) : (Piece.directive (Directive.read t).1).Aligned :=
  .of_slashless rfl (List.cons_ne_nil _ _) fun slash => Directive.read_noSlash t _ slash rfl

theorem aligned_consText {glyphs : Text} {pieces : List Piece} (whole : Whole glyphs)
    (nonempty : glyphs ≠ []) (noPercent : [.char '%'] ∉ Text.units glyphs)
    (aligned : ∀ p ∈ pieces, p.Aligned) : ∀ p ∈ consText glyphs pieces, p.Aligned := by
  have alone : (Piece.text glyphs).Aligned :=
    ⟨whole, nonempty, fun _ => noPercent, fun other => by cases other⟩
  intro p member
  unfold consText at member
  split at member
  · rename_i first later
    rcases List.mem_cons.1 member with rfl | member
    · have merged := aligned _ List.mem_cons_self
      refine ⟨whole.append merged.whole, by simp [source, nonempty], fun _ => ?_,
        fun other => by cases other⟩
      rw [source, Text.units_append whole, List.mem_append, not_or]
      exact ⟨noPercent, merged.text rfl⟩
    · exact aligned p (List.mem_cons_of_mem _ member)
  · rcases List.mem_cons.1 member with rfl | member
    · exact alone
    · exact aligned p member

theorem aligned_ofText {t : Text} (whole : Whole t) : ∀ p ∈ ofText t, p.Aligned := by
  fun_induction ofText t with
  | case1 => simp
  | case2 =>
      intro p member
      rw [List.mem_singleton.1 member]
      exact aligned_directive []
  | case3 g noPercent =>
      refine @aligned_consText [g] [] whole (by simp) ?_ (by simp)
      simpa [Text.units] using Ne.symm noPercent
  | case4 next rest ih =>
      cases whole with
      | escape later =>
          exact aligned_consText (.escape .nil) (by simp) (by simp [Text.units]) (ih later)
      | plain noSlash => exact absurd rfl noSlash
  | case5 g next rest noSlash noPercent ih =>
      refine aligned_consText (.plain noSlash .nil) (by simp) ?_ (ih (whole_cons noSlash whole))
      simpa [Text.units] using Ne.symm noPercent
  | case6 g rest noSlash percent ih =>
      obtain rfl : g = .char '%' := Classical.not_not.1 percent
      have later := whole_append [.char '%', .char '%'] (by decide) whole
      intro p member
      rcases List.mem_cons.1 member with rfl | member
      · exact .of_slashless rfl (by decide) (by decide)
      · exact ih later p member
  | case7 g next rest noSlash percent noPercent reading ih =>
      obtain rfl : g = .char '%' := Classical.not_not.1 percent
      have split_text := Directive.read_text (next :: rest)
      rw [← split_text] at whole
      have later := whole_append _ (Directive.read_noSlash (next :: rest)) whole
      intro p member
      rcases List.mem_cons.1 member with rfl | member
      · exact aligned_directive (next :: rest)
      · exact ih later p member

def Apart (p q : Piece) : Prop := ¬ (p.isText = true ∧ q.isText = true)

theorem apart_consText (glyphs : Text) {pieces : List Piece} (apart : pieces.IsChain Apart) :
    (consText glyphs pieces).IsChain Apart := by
  unfold consText
  split
  · rename_i first later
    cases later with
    | nil => exact List.isChain_singleton _
    | cons next later =>
        rw [List.isChain_cons_cons] at apart ⊢
        exact apart
  · rename_i noText
    cases pieces with
    | nil => exact List.isChain_singleton _
    | cons next later =>
        refine List.isChain_cons_cons.2 ⟨fun both => ?_, apart⟩
        cases next with
        | text first => exact noText first later rfl
        | percent => cases both.2
        | directive d => cases both.2

theorem apart_cons {p : Piece} (specifier : p.isText = false) {pieces : List Piece}
    (apart : pieces.IsChain Apart) : (p :: pieces).IsChain Apart := by
  refine List.isChain_cons.2 ⟨fun q _ both => ?_, apart⟩
  rw [specifier] at both
  cases both.1

/-- No text follows another. -/
theorem apart_ofText (t : Text) : (ofText t).IsChain Apart := by
  fun_induction ofText t with
  | case1 => exact .nil
  | case2 => exact List.isChain_singleton _
  | case3 => exact List.isChain_singleton _
  | case4 next rest ih => exact apart_consText _ ih
  | case5 g next rest _ _ ih => exact apart_consText _ ih
  | case6 g rest _ _ ih => exact apart_cons rfl ih
  | case7 g next rest _ _ _ reading ih => exact apart_cons rfl ih

theorem flatten_append (before after : List Piece) :
    flatten (before ++ after) = flatten before ++ flatten after :=
  List.flatMap_append

theorem whole_flatten {pieces : List Piece} (aligned : ∀ p ∈ pieces, p.Aligned) :
    Whole (flatten pieces) := by
  induction pieces with
  | nil => exact .nil
  | cons p later ih =>
      exact (aligned p List.mem_cons_self).whole.append
        (ih fun q member => aligned q (List.mem_cons_of_mem p member))

theorem exists_piece_of_unit {pieces : List Piece} (aligned : ∀ p ∈ pieces, p.Aligned) {n : Nat}
    {u : Text} (unit : Text.UnitAt (flatten pieces) n u) :
    ∃ before p after m, pieces = before ++ p :: after ∧ n = (flatten before).length + m ∧
      Text.UnitAt p.source m u := by
  induction pieces generalizing n with
  | nil =>
      obtain ⟨front, back, whole, _⟩ := unit
      simp [flatten, Text.units] at whole
  | cons p later ih =>
      obtain ⟨front, back, whole, rfl⟩ := unit
      have here := (aligned p List.mem_cons_self).whole
      rw [flatten_cons, Text.units_append here] at whole
      -- The units before this one are those of the first piece and more, or only some of them.
      rcases List.append_eq_append_iff.1 whole with ⟨rest, rfl, inside⟩ | ⟨rest, inside, behind⟩
      · obtain ⟨before, q, after, m, rfl, place, found⟩ :=
          ih (fun q member => aligned q (List.mem_cons_of_mem p member)) ⟨rest, back, inside, rfl⟩
        refine ⟨p :: before, q, after, m, rfl, ?_, found⟩
        rw [flatten_cons, List.flatten_append, Text.flatten_units, List.length_append,
          List.length_append, place, Nat.add_assoc]
      · cases rest with
        | nil =>
            rw [List.append_nil] at inside
            obtain ⟨before, q, after, m, rfl, place, found⟩ :=
              ih (fun q member => aligned q (List.mem_cons_of_mem p member))
                (n := 0) ⟨[], back, behind.symm, rfl⟩
            refine ⟨p :: before, q, after, m, rfl, ?_, found⟩
            rw [flatten_cons, ← inside, Text.flatten_units, List.length_append, Nat.add_assoc,
              ← place, Nat.add_zero]
        | cons first rest =>
            obtain ⟨rfl, rfl⟩ := List.cons.inj behind
            exact ⟨[], p, later, front.flatten.length, rfl, by simp [flatten],
              front, rest, inside, rfl⟩

end Piece

namespace PlacedPiece

def Holds (p : PlacedPiece) (n : Nat) : Prop := p.start ≤ n ∧ n < p.stop

/-- Every piece stands behind those before it, and its span is that of the glyphs which are its
own. -/
theorem mem_place_iff {whole : Span} {start : Nat} {content : List Located} {pieces : List Piece}
    {p : PlacedPiece} :
    p ∈ place whole start content pieces ↔
      ∃ before piece after, pieces = before ++ piece :: after ∧
        p = ⟨piece, start + (Piece.flatten before).length, Located.span whole
          ((content.drop (Piece.flatten before).length).take piece.source.length)⟩ := by
  induction pieces generalizing start content with
  | nil => simp [place]
  | cons first later ih =>
      rw [place, List.mem_cons, ih]
      constructor
      · rintro (rfl | ⟨before, piece, after, rfl, rfl⟩)
        · exact ⟨[], first, later, rfl, by simp [Piece.flatten]⟩
        · refine ⟨first :: before, piece, after, rfl, ?_⟩
          simp [Piece.flatten_cons, Nat.add_assoc]
      · rintro ⟨before, piece, after, whole, rfl⟩
        cases before with
        | nil =>
            obtain ⟨rfl, rfl⟩ := List.cons.inj whole
            exact .inl (by simp [Piece.flatten])
        | cons other before =>
            obtain ⟨rfl, rfl⟩ := List.cons.inj whole
            refine .inr ⟨before, piece, after, rfl, ?_⟩
            simp [Piece.flatten_cons, Nat.add_assoc]

theorem place_pairwise (whole : Span) (start : Nat) (content : List Located)
    (pieces : List Piece) :
    (place whole start content pieces).Pairwise fun p q => p.stop ≤ q.start := by
  induction pieces generalizing start content with
  | nil => exact .nil
  | cons piece later ih =>
      refine .cons (fun q member => ?_) (ih _ _)
      obtain ⟨before, other, after, _, rfl⟩ := mem_place_iff.1 member
      simp [stop]

theorem eq_of_holds {parts : List PlacedPiece}
    (order : parts.Pairwise fun p q => p.stop ≤ q.start) {n : Nat} {i j : Fin parts.length}
    (here : parts[i].Holds n) (there : parts[j].Holds n) : i = j := by
  obtain ⟨i, low⟩ := i
  obtain ⟨j, high⟩ := j
  simp only [Fin.getElem_fin, Holds] at here there
  rcases Nat.lt_trichotomy i j with less | rfl | more
  · have apart := List.pairwise_iff_getElem.1 order i j low high less
    omega
  · rfl
  · have apart := List.pairwise_iff_getElem.1 order j i high low more
    omega

end PlacedPiece

namespace FormatString

/-- The parts tile the content in order. They are made of its units, and specifiers have all those
percent signs that are units of their own and no other; the invalid ones among them are
diagnosed. -/
structure Partitioned (f : FormatString) : Prop where
  reconstruct : f.reconstruct = f.text
  slice : ∀ p ∈ f.parts, p.piece.source = f.text.extract p.start p.stop
  span : ∀ p ∈ f.parts, p.span = Located.span f.span (f.content.extract p.start p.stop)
  order : f.parts.Pairwise fun p q => p.stop ≤ q.start
  nonempty : ∀ p ∈ f.parts, p.piece.source ≠ []
  apart : f.parts.IsChain fun p q => ¬ (p.piece.isText = true ∧ q.piece.isText = true)
  borders : ∀ p ∈ f.parts, f.text.IsBorder p.start ∧ f.text.IsBorder p.stop
  texts : ∀ p ∈ f.parts, p.piece.isText = true → [.char '%'] ∉ p.piece.source.units
  unescaped : ∀ n, f.text.UnitAt n [.char '%'] →
    ∃! i : Fin f.parts.length, f.parts[i].piece.isText = false ∧ f.parts[i].Holds n
  escaped : ∀ n, f.text.UnitAt n [.char '\\', .char '%'] →
    ∀ p ∈ f.parts, p.piece.isText = false → ¬ p.Holds (n + 1)
  diagnostics : f.diagnostics = (f.parts.filter (·.piece.isInvalid)).map fun p =>
    .invalidDirective p.span p.piece.source

theorem diagnostics_eq (f : FormatString) :
    f.diagnostics = (f.parts.filter (·.piece.isInvalid)).map fun p =>
      .invalidDirective p.span p.piece.source := by
  unfold diagnostics directives
  induction f.parts with
  | nil => rfl
  | cons p later ih =>
      cases piece : p.piece with
      | text glyphs => simpa [PlacedPiece.directive?, Piece.isInvalid, piece] using ih
      | percent => simpa [PlacedPiece.directive?, Piece.isInvalid, piece] using ih
      | directive d =>
          cases invalid : d.isInvalid <;>
            simpa [PlacedPiece.directive?, Piece.isInvalid, Piece.source, piece, invalid] using ih

section Placed

variable {f : FormatString}
  (placed : f.parts = PlacedPiece.place f.span 0 f.content (Piece.ofText f.text))
include placed

theorem exists_around {p : PlacedPiece} (member : p ∈ f.parts) :
    ∃ before after, Piece.ofText f.text = before ++ p.piece :: after ∧
      f.text = Piece.flatten before ++ (p.piece.source ++ Piece.flatten after) ∧
      p.start = (Piece.flatten before).length ∧
      p.span = Located.span f.span (f.content.extract p.start p.stop) := by
  rw [placed] at member
  obtain ⟨before, piece, after, pieces, rfl⟩ := PlacedPiece.mem_place_iff.1 member
  refine ⟨before, after, pieces, ?_, by simp, by simp [PlacedPiece.stop, List.extract_eq_take_drop]⟩
  have whole := Piece.flatten_ofText f.text
  rw [pieces, Piece.flatten_append, Piece.flatten_cons] at whole
  exact whole.symm

theorem slice_eq_source {p : PlacedPiece} (member : p ∈ f.parts) :
    p.piece.source = f.text.extract p.start p.stop := by
  obtain ⟨before, after, _, whole, start, _⟩ := exists_around placed member
  rw [PlacedPiece.stop, start, whole, List.extract_eq_take_drop, List.drop_left,
    Nat.add_sub_cancel_left, List.take_left]

theorem aligned_of_whole (enclosed : Whole f.text) {p : PlacedPiece} (member : p ∈ f.parts) :
    p.piece.Aligned := by
  obtain ⟨before, after, pieces, _⟩ := exists_around placed member
  exact Piece.aligned_ofText enclosed p.piece (by simp [pieces])

theorem borders_of_whole (enclosed : Whole f.text) {p : PlacedPiece} (member : p ∈ f.parts) :
    f.text.IsBorder p.start ∧ f.text.IsBorder p.stop := by
  obtain ⟨before, after, pieces, whole, start, _⟩ := exists_around placed member
  have aligned := Piece.aligned_ofText enclosed
  rw [pieces] at aligned
  have front := Piece.whole_flatten fun q listed => aligned q (List.mem_append_left _ listed)
  have here := (aligned p.piece (by simp)).whole
  rw [PlacedPiece.stop, start, whole]
  refine ⟨Text.isBorder_append front _, ?_⟩
  rw [← List.length_append, ← List.append_assoc]
  exact Text.isBorder_append (front.append here) _

/-- Every unit of the content lies in a part, as a unit of the part. -/
theorem exists_part_of_unit (enclosed : Whole f.text) {n : Nat} {u : Text}
    (unit : f.text.UnitAt n u) :
    ∃ i : Fin f.parts.length, f.parts[i].start ≤ n ∧ n + u.length ≤ f.parts[i].stop ∧
      u ∈ f.parts[i].piece.source.units := by
  rw [← Piece.flatten_ofText f.text] at unit
  obtain ⟨before, piece, after, m, pieces, rfl, inside⟩ :=
    Piece.exists_piece_of_unit (Piece.aligned_ofText enclosed) unit
  have member : _ ∈ PlacedPiece.place f.span 0 f.content (Piece.ofText f.text) :=
    PlacedPiece.mem_place_iff.2 ⟨before, piece, after, pieces, rfl⟩
  rw [← placed] at member
  obtain ⟨i, bound, here⟩ := List.getElem_of_mem member
  have within := inside.le_length
  refine ⟨⟨i, bound⟩, ?_⟩
  simp only [Fin.getElem_fin, here, PlacedPiece.stop]
  exact ⟨by omega, by omega, inside.mem⟩

theorem parts_pairwise : f.parts.Pairwise fun p q => p.stop ≤ q.start := by
  rw [placed]
  exact PlacedPiece.place_pairwise _ _ _ _

theorem partitioned_of_whole (enclosed : Whole f.text) : f.Partitioned where
  reconstruct := by rw [reconstruct, placed, PlacedPiece.place_pieces, Piece.flatten_ofText]
  slice _ member := slice_eq_source placed member
  span p member := by
    obtain ⟨_, _, _, _, _, span⟩ := exists_around placed member
    exact span
  order := parts_pairwise placed
  nonempty _ member := (aligned_of_whole placed enclosed member).nonempty
  apart := by
    have apart := Piece.apart_ofText f.text
    rw [← PlacedPiece.place_pieces f.span 0 f.content (Piece.ofText f.text), ← placed,
      List.isChain_map] at apart
    exact apart
  borders _ member := borders_of_whole placed enclosed member
  texts _ member := (aligned_of_whole placed enclosed member).text
  unescaped n unit := by
    obtain ⟨i, low, high, inside⟩ := exists_part_of_unit placed enclosed unit
    have aligned := aligned_of_whole placed enclosed (List.getElem_mem i.isLt)
    have specifier : f.parts[i].piece.isText = false :=
      Bool.eq_false_iff.2 fun text => aligned.text text inside
    have here : f.parts[i].Holds n := ⟨low, high⟩
    exact ⟨i, ⟨specifier, here⟩,
      fun j there => PlacedPiece.eq_of_holds (parts_pairwise placed) there.2 here⟩
  escaped n unit p member specifier holds := by
    obtain ⟨i, low, high, inside⟩ := exists_part_of_unit placed enclosed unit
    obtain ⟨j, bound, rfl⟩ := List.getElem_of_mem member
    have here : f.parts[i].Holds (n + 1) := ⟨by omega, high⟩
    -- The part that holds the percent sign has the backslash in front of it as well.
    obtain rfl : i = ⟨j, bound⟩ := PlacedPiece.eq_of_holds (parts_pairwise placed) here holds
    have noSlash := (aligned_of_whole placed enclosed (List.getElem_mem bound)).specifier specifier
    rw [Fin.getElem_fin, Text.units_slashless noSlash] at inside
    simp at inside
  diagnostics := diagnostics_eq f

end Placed

theorem parts_eq_place {a : Argument} {f : FormatString} (spelled : ofArgument? a = some f) :
    f.parts = PlacedPiece.place f.span 0 f.content (Piece.ofText f.text) := by
  unfold ofArgument? at spelled
  split at spelled
  · cases spelled
    rfl
  · cases spelled

/-- An argument that consists of literals, comments apart, is a format with the insides of those
literals for its content, and its parts partition that. -/
theorem ofArgument?_partitioned {a : Argument}
    (literals : ∀ t ∈ a.code, t.kind = .string ∧
      ∃ file text tokens, Token.tokenize file text = .ok tokens ∧ t ∈ tokens) :
    ∃ bodies f, List.Forall₂ (fun (t : Token) (body : Text) => ∃ encoding, .char '"' ∉ encoding ∧
        t.lexeme = encoding ++ .char '"' :: (body ++ [.char '"'])) a.code bodies ∧
      ofArgument? a = some f ∧ f.text = bodies.flatten ∧ f.Partitioned := by
  have lexemes : ∀ t ∈ a.code, Enclosed t.body ∧ ∃ encoding, .char '"' ∉ encoding ∧
      t.lexeme = encoding ++ .char '"' :: (t.body ++ [.char '"']) := by
    intro t coded
    obtain ⟨string, file, text, tokens, read, member⟩ := literals t coded
    obtain ⟨enclosed, encoding, encoded, spelled⟩ := Token.string_lexeme read member string
    exact ⟨enclosed, encoding, Token.encoding_noQuote encoded, spelled⟩
  have literal : a.isStringLiteral = true := by
    simpa [Argument.isStringLiteral] using fun t coded => (literals t coded).1
  have content := text_literalBodies a
  rw [List.flatMap_def] at content
  have enclosed : Enclosed (a.code.map Token.body).flatten := by
    refine Enclosed.flatten fun body listed => ?_
    obtain ⟨t, coded, rfl⟩ := List.mem_map.1 listed
    exact (lexemes t coded).1
  refine ⟨a.code.map Token.body, _, ?_, if_pos literal, content, ?_⟩
  · rw [List.forall₂_map_right_iff, List.forall₂_same]
    exact fun t coded => (lexemes t coded).2
  · refine partitioned_of_whole (parts_eq_place (if_pos literal)) ?_
    rw [text, content]
    exact enclosed.whole

/-- Literals with an escaped percent sign, two percent signs and two invalid directives. -/
def escapedPercent : List Lexeme :=
  [⟨[], .string, "u8\"\\%5%%\""⟩, ⟨[], .comment, "/* c */"⟩, ⟨[], .string, "\"%y%\""⟩]

theorem ofArgument?_partitioned_escapedPercent :
    ∃ (a : Argument) (f : FormatString),
      (∀ t ∈ a.code, t.kind = .string ∧
        ∃ file text tokens, Token.tokenize file text = .ok tokens ∧ t ∈ tokens) ∧
      a.tokens.map (·.lexeme) = escapedPercent.map (·.text) ∧
      ofArgument? a = some f ∧ f.text = "\\%5%%%y%" ∧
      f.parts.map (fun p => (p.piece.source, p.start)) =
        [(Text.ofString "\\%5", 0), (Text.ofString "%%", 3), (Text.ofString "%y", 5),
          (Text.ofString "%", 7)] ∧
      f.diagnostics.length = 2 ∧ f.Partitioned := by
  have chain : Lexeme.Chain escapedPercent [] := by
    repeat' first
      | exact .nil
      | refine .cons (by decide) (by decide) (Head.read_iff_form.1 rfl) ?_
  have read := Lexeme.tokenize_words chain []
  have literals : ∀ t ∈ Token.code (Token.place [] .first escapedPercent), t.kind = .string ∧
      ∃ file text tokens, Token.tokenize file text = .ok tokens ∧ t ∈ tokens := by
    have strings : ∀ t ∈ Token.code (Token.place [] .first escapedPercent), t.kind = .string ∧
        t ∈ Token.place [] .first (escapedPercent ++ [⟨[], .eof, []⟩]) := by decide
    exact fun t coded => ⟨(strings t coded).1, [], _, _, read, (strings t coded).2⟩
  obtain ⟨_, f, _, spelled, _, partitioned⟩ :=
    @ofArgument?_partitioned ⟨Token.place [] .first escapedPercent, by decide⟩ literals
  cases spelled
  exact ⟨⟨Token.place [] .first escapedPercent, by decide⟩, _, literals, rfl, rfl, rfl, by cbv,
    by cbv, partitioned⟩

end FormatString

end FormatLint
