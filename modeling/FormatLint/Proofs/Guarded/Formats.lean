import FormatLint.Proofs.Guarded.Calls
import FormatLint.Proofs.Token.StringLiteral

/-!
Reading the format of a call never fails. Every glyph of the content stands in the source where the
table of lines puts its offset, and the offsets grow: so each part of the content has a span, and the
spans of the parts stand in a row. `Guarded.format_ok`
-/

namespace FormatLint

namespace Located

/-- The glyph stands in the source at its place. -/
def Exact (s : Source) (g : Located) : Prop :=
  ∃ front, front ++ [g.glyph] <+: s.content ∧ g.position = Position.first.after front

/-- Glyphs of the source, one behind the other. -/
structure Row (s : Source) (content : List Located) : Prop where
  exact : ∀ g ∈ content, g.Exact s
  ordered : content.Pairwise fun g h => g.position.offset < h.position.offset

theorem ofText_inside {p : Position} {t : Text} : ∀ g ∈ ofText p t,
    p.offset ≤ g.position.offset ∧ g.position.offset < p.offset + t.length := by
  induction t generalizing p with
  | nil => simp [ofText]
  | cons glyph rest ih =>
      intro g member
      rw [List.length_cons]
      rcases List.mem_cons.1 member with rfl | later
      · dsimp only
        omega
      · have bounds := ih g later
        rw [Position.step_offset] at bounds
        omega

theorem ofText_row {s : Source} {front t : Text} (begins : front ++ t <+: s.content) :
    Row s (ofText (Position.first.after front) t) := by
  induction t generalizing front with
  | nil => exact ⟨by simp [ofText], by simp [ofText]⟩
  | cons glyph rest ih =>
      have next : front ++ [glyph] ++ rest <+: s.content := by
        rwa [List.append_assoc, List.singleton_append]
      have later := ih next
      rw [Position.after_append, Position.after_cons, Position.after_nil] at later
      rw [ofText]
      refine ⟨List.forall_mem_cons.2 ⟨⟨front, (List.prefix_append _ _).trans next, rfl⟩, later.exact⟩,
        List.pairwise_cons.2 ⟨fun g member => ?_, later.ordered⟩⟩
      have bounds := (ofText_inside g member).1
      rw [Position.step_offset] at bounds
      dsimp only
      omega

theorem Row.le {s : Source} {content : List Located} (row : Row s content) {i j : Nat}
    {g h : Located} (first : content[i]? = some g) (second : content[j]? = some h) (order : i ≤ j) :
    g.position.offset ≤ h.position.offset := by
  rcases Nat.eq_or_lt_of_le order with rfl | before
  · rw [first] at second
    cases second
    exact Nat.le_refl _
  · obtain ⟨low, rfl⟩ := List.getElem?_eq_some_iff.1 first
    obtain ⟨high, rfl⟩ := List.getElem?_eq_some_iff.1 second
    exact Nat.le_of_lt (List.pairwise_iff_getElem.1 row.ordered _ _ low high before)

end Located

/-- The inside of a literal begins behind its quote. -/
theorem Token.literalBody_eq {encoding inside : Text} {t : Token} (noQuote : .char '"' ∉ encoding)
    (spelled : t.lexeme = encoding ++ .char '"' :: (inside ++ [.char '"'])) :
    t.literalBody = Located.ofText (t.span.start.after (encoding ++ [.char '"'])) inside := by
  have skipped : ∀ g ∈ Located.ofText t.span.start encoding,
      decide (g.glyph ≠ .char '"') = true := by
    intro g member
    have glyph := List.mem_map_of_mem (f := Located.glyph) member
    rw [← Located.text, Located.text_ofText] at glyph
    refine decide_eq_true ?_
    intro quote
    rw [quote] at glyph
    exact noQuote glyph
  rw [literalBody, spelled, Located.ofText_append, List.dropWhile_append_of_pos skipped,
    Located.ofText, List.dropWhile_cons_of_neg (by simp), List.tail_cons, Located.ofText_append,
    Position.after_append]
  exact List.dropLast_concat

theorem Token.literalBody_place {s : Source} {tokens : List Token} {t : Token}
    (read : tokenize s.name s.content = .ok tokens) (member : t ∈ tokens)
    (string : t.kind = .string) :
    ∃ encoding front, .char '"' ∉ encoding ∧
      t.lexeme = encoding ++ .char '"' :: (t.body ++ [.char '"']) ∧
      t.span = ⟨s.name, Position.first.after front, Position.first.after (front ++ t.lexeme)⟩ ∧
      front ++ (encoding ++ [.char '"']) ++ t.body <+: s.content ∧
      t.literalBody =
        Located.ofText (Position.first.after (front ++ (encoding ++ [.char '"']))) t.body := by
  obtain ⟨_, encoding, encoded, spelled⟩ := string_lexeme read member string
  obtain ⟨front, begins, span⟩ := span_of_tokenize read t member
  have noQuote := encoding_noQuote encoded
  have body := literalBody_eq noQuote spelled
  rw [span] at body
  dsimp only at body
  rw [← Position.after_append] at body
  refine ⟨encoding, front, noQuote, spelled, span, List.IsPrefix.trans ?_ begins, body⟩
  rw [spelled]
  exact ⟨[.char '"'], by simp⟩

namespace Guarded

variable {s : Source}

theorem locate_ok {front : Text} (begins : front <+: s.content) :
    s.locate front.length = .ok (Position.first.after front) := by
  obtain ⟨back, whole⟩ := begins
  have length := congrArg List.length whole
  rw [List.length_append] at length
  have inside : ¬ ((front.length : Int) < 0 ∨ (front.length : Int) > s.content.length) := by omega
  rw [Source.locate, if_neg inside, Int.toNat_natCast, Source.position_eq_after whole.symm]

theorem mapM_locate {front t : Text} (begins : front ++ t <+: s.content) :
    ((t.zipIdx front.length).mapM fun (g, offset) => do
      let p ← (s.locate offset).mapError Mishap.span
      return (⟨g, p⟩ : Located)) = .ok (Located.ofText (Position.first.after front) t) := by
  induction t generalizing front with
  | nil => rfl
  | cons glyph rest ih =>
      have next : front ++ [glyph] ++ rest <+: s.content := by
        rwa [List.append_assoc, List.singleton_append]
      have later := ih next
      rw [Position.after_append, Position.after_cons, Position.after_nil, List.length_append,
        List.length_singleton] at later
      rw [List.zipIdx_cons, List.mapM_cons, later]
      dsimp only
      rw [locate_ok ((List.prefix_append _ _).trans begins)]
      rfl

theorem literalBody_ok {tokens : List Token} {t : Token}
    (read : Token.tokenize s.name s.content = .ok tokens) (member : t ∈ tokens)
    (string : t.kind = .string) :
    literalBody s t = .ok t.literalBody ∧ Located.Row s t.literalBody ∧
      ∀ g ∈ t.literalBody, t.span.start.offset ≤ g.position.offset ∧
        g.position.offset < t.span.stop.offset := by
  obtain ⟨encoding, front, noQuote, spelled, span, inside, body⟩ :=
    Token.literalBody_place read member string
  have first : t.lexeme.findIdx? (· = .char '"') = some encoding.length := by
    have empty : encoding.findIdx? (· = Glyph.char '"') = none := by
      refine List.findIdx?_eq_none_iff.2 fun g member => decide_eq_false ?_
      rintro rfl
      exact noQuote member
    rw [spelled, List.findIdx?_append, empty, List.findIdx?_cons]
    simp
  have start : (front ++ (encoding ++ [Glyph.char '"'])).length =
      t.span.start.offset + (encoding.length + 1) := by
    have offset := Position.first.after_offset front
    have zero : Position.first.offset = 0 := rfl
    rw [span]
    simp only [List.length_append, List.length_singleton]
    omega
  have cut : (t.lexeme.drop (encoding.length + 1)).dropLast = t.body := by
    rw [spelled, List.drop_length_add_append]
    simp
  refine ⟨?_, ?_, ?_⟩
  · rw [literalBody, if_pos string, first]
    dsimp only
    rw [cut, body, ← mapM_locate inside, start]
  · rw [body]
    exact Located.ofText_row inside
  · intro g member
    rw [body] at member
    have bounds := Located.ofText_inside g member
    have length := congrArg List.length spelled
    have stop := Position.first.after_offset (front ++ t.lexeme)
    have zero : Position.first.offset = 0 := rfl
    rw [Position.after_offset] at bounds
    rw [span] at start ⊢
    simp only [List.length_append, List.length_cons] at *
    omega

theorem bodies_ok {tokens : List Token} {a : Argument}
    (read : Token.tokenize s.name s.content = .ok tokens) (inside : a.tokens ⊆ tokens)
    (row : Token.InRow a.tokens) (literal : ∀ t ∈ a.code, t.kind = .string) :
    a.code.mapM (literalBody s) = .ok a.literalBodies ∧ Located.Row s a.literalBodies.flatten := by
  have code : a.code ⊆ tokens := fun t member => inside (List.mem_of_mem_filter member)
  have each {t : Token} (member : t ∈ a.code) := literalBody_ok read (code member) (literal t member)
  refine ⟨mapM_ok fun t member => (each member).1, ?_, ?_⟩
  · intro g member
    obtain ⟨body, listed, found⟩ := List.mem_flatten.1 member
    obtain ⟨t, token, rfl⟩ := List.mem_map.1 listed
    exact (each token).2.1.exact g found
  · refine List.pairwise_flatten.2 ⟨fun body listed => ?_, List.pairwise_map.2 ?_⟩
    · obtain ⟨t, token, rfl⟩ := List.mem_map.1 listed
      exact (each token).2.1.ordered
    · refine (row.apart.sublist List.filter_sublist).imp_of_mem fun {t u} first second order g front h
        back => ?_
      have bounds := (each first).2.2 g front
      have bounds' := (each second).2.2 h back
      omega

/-- A part of the content has a span, if it is not empty. -/
theorem partSpan_ok {content : List Located} (row : Located.Row s content) {start stop : Nat}
    {first final : Located} (begins : content[start]? = some first)
    (ends : content[stop - 1]? = some final) (order : start ≤ stop - 1) :
    partSpan s content start stop =
      .ok ⟨s.name, first.position, final.position.step final.glyph⟩ := by
  obtain ⟨front, reaches, place⟩ := row.exact first (List.mem_of_getElem? begins)
  obtain ⟨front', reaches', place'⟩ := row.exact final (List.mem_of_getElem? ends)
  have offset : first.position.offset = front.length := by
    rw [place, Position.after_offset]
    exact Nat.zero_add _
  have offset' : final.position.offset + 1 = (front' ++ [final.glyph]).length := by
    rw [place', Position.after_offset, List.length_append]
    exact congrArg (· + 1) (Nat.zero_add _)
  have forward := row.le begins ends order
  have located := locate_ok ((List.prefix_append _ _).trans reaches)
  have located' := locate_ok reaches'
  rw [← offset, ← place] at located
  rw [← offset', Position.after_append, ← place'] at located'
  have behind : ¬ (final.position.step final.glyph).offset < first.position.offset := by
    rw [Position.step_offset]
    omega
  have span : s.span first.position.offset (final.position.offset + 1) =
      .ok ⟨s.name, first.position, final.position.step final.glyph⟩ := by
    rw [Source.span, located]
    change (s.locate ((final.position.offset + 1 : Nat) : Int) >>= _) = _
    rw [located']
    exact if_neg behind
  rw [partSpan, get_ok begins, ok_bind, get_ok ends, ok_bind, span]
  rfl

theorem part_ends {content : List Located} {start length : Nat} (present : 0 < length)
    (inside : start + length ≤ content.length) (whole : Span) :
    ∃ first final, content[start]? = some first ∧ content[start + length - 1]? = some final ∧
      Located.span whole ((content.drop start).take length) =
        ⟨whole.file, first.position, final.position.step final.glyph⟩ := by
  have low : start < content.length := by omega
  have high : start + length - 1 < content.length := by omega
  have long : ((content.drop start).take length).length = length := by
    rw [List.length_take, List.length_drop]
    omega
  have head : ((content.drop start).take length).head? = some content[start] := by
    rw [List.head?_eq_getElem?, List.getElem?_take_of_lt present, List.getElem?_drop,
      Nat.add_zero, List.getElem?_eq_getElem low]
  have last : ((content.drop start).take length).getLast? = some content[start + length - 1] := by
    rw [List.getLast?_eq_getElem?, long, List.getElem?_take_of_lt (by omega), List.getElem?_drop,
      ← Nat.add_sub_assoc present, List.getElem?_eq_getElem high]
  refine ⟨_, _, List.getElem?_eq_getElem low, List.getElem?_eq_getElem high, ?_⟩
  rw [Located.span, head, last]

/-- The spans of the pieces of a content, one behind the other. -/
theorem placePieces_ok {content : List Located} (row : Located.Row s content) {whole : Span}
    (file : whole.file = s.name) {start : Nat} {pieces : List Piece}
    (present : ∀ p ∈ pieces, p.source ≠ [])
    (length : start + (Piece.flatten pieces).length = content.length) :
    placePieces s content start pieces =
        .ok (PlacedPiece.place whole start (content.drop start) pieces) ∧
      Span.Row ((PlacedPiece.place whole start (content.drop start) pieces).map (·.span)) ∧
      ∀ p ∈ PlacedPiece.place whole start (content.drop start) pieces, p.span.file = whole.file ∧
        ∃ i g, start ≤ i ∧ content[i]? = some g ∧ p.span.stop.offset = g.position.offset + 1 := by
  induction pieces generalizing start with
  | nil => exact ⟨rfl, ⟨by simp [PlacedPiece.place], by simp [PlacedPiece.place]⟩,
      by simp [PlacedPiece.place]⟩
  | cons piece later ih =>
      have positive := List.length_pos_iff.2 (present piece List.mem_cons_self)
      rw [Piece.flatten_cons, List.length_append] at length
      obtain ⟨rest, spans, ends⟩ := @ih (start + piece.source.length)
        (fun p member => present p (List.mem_cons_of_mem piece member)) (by omega)
      obtain ⟨first, final, begins, stops, span⟩ := @part_ends content start _ positive (by omega)
        whole
      have here := partSpan_ok row begins stops (by omega)
      have order := row.le begins stops (by omega)
      rw [placePieces, here, ok_bind, PlacedPiece.place, List.drop_drop, rest, span, file]
      have stop := Position.step_offset final.position final.glyph
      refine ⟨rfl, ⟨List.forall_mem_cons.2 ⟨⟨rfl, ?_⟩, spans.forward⟩,
        List.pairwise_cons.2 ⟨fun other member => ?_, spans.ordered⟩⟩,
        List.forall_mem_cons.2 ⟨⟨rfl, _, final, by omega, stops, stop⟩, fun p member => ?_⟩⟩
      · dsimp only
        omega
      · obtain ⟨p, listed, rfl⟩ := List.mem_map.1 member
        obtain ⟨same, i, g, behind, found, ends⟩ := ends p listed
        have after := row.le begins found (by omega)
        refine ⟨(same.trans file).symm, ?_⟩
        dsimp only
        omega
      · obtain ⟨same, i, g, behind, found, ends⟩ := ends p member
        exact ⟨same.trans file, i, g, by omega, found, ends⟩

theorem source_ne_nil (t : Text) : ∀ p ∈ Piece.ofText t, p.source ≠ [] := by
  have joined {glyphs : Text} {pieces : List Piece} (nonempty : glyphs ≠ [])
      (all : ∀ p ∈ pieces, p.source ≠ []) : ∀ p ∈ Piece.consText glyphs pieces, p.source ≠ [] := by
    unfold Piece.consText
    split
    · refine List.forall_mem_cons.2 ⟨?_, fun p member => all p (List.mem_cons_of_mem _ member)⟩
      exact List.append_ne_nil_of_left_ne_nil nonempty _
    · exact List.forall_mem_cons.2 ⟨nonempty, all⟩
  have directive (d : Directive) : (Piece.directive d).source ≠ [] := List.cons_ne_nil _ _
  fun_induction Piece.ofText t with
  | case1 => simp
  | case2 => simpa using directive _
  | case3 => simp [Piece.source]
  | case4 _ _ ih => exact joined (List.cons_ne_nil _ _) ih
  | case5 _ _ _ _ _ ih => exact joined (List.cons_ne_nil _ _) ih
  | case6 _ _ _ _ ih => exact List.forall_mem_cons.2 ⟨List.cons_ne_nil _ _, ih⟩
  | case7 _ _ _ _ _ _ _ ih => exact List.forall_mem_cons.2 ⟨directive _, ih⟩

theorem directives_sublist (parts : List PlacedPiece) :
    ((parts.filterMap PlacedPiece.directive?).map (·.2)).Sublist (parts.map (·.span)) := by
  induction parts with
  | nil => exact List.Sublist.slnil
  | cons part later ih =>
      rw [List.map_cons, List.filterMap_cons]
      cases found : part.directive? with
      | none => exact ih.cons _
      | some d =>
          have span : d.2 = part.span := by
            unfold PlacedPiece.directive? at found
            split at found
            · cases found
              rfl
            · cases found
          dsimp only
          rw [List.map_cons, span]
          exact ih.cons_cons _

theorem span_file {tokens : List Token} {a : Argument}
    (read : Token.tokenize s.name s.content = .ok tokens) (inside : a.tokens ⊆ tokens) :
    a.span.file = s.name := by
  obtain ⟨_, _, span⟩ := Token.span_of_tokenize read _ (inside (List.head_mem a.nonempty))
  exact congrArg Span.file span

/-- The format of a call can be read, and its span and those of its directives can be shown. -/
theorem format_ok {tokens : List Token} {a : Argument} {f : FormatString}
    (read : Token.tokenize s.name s.content = .ok tokens) (inside : a.tokens ⊆ tokens)
    (row : Token.InRow a.tokens) (spelled : FormatString.ofArgument? a = some f) :
    a.isStringLiteral = true ∧ format s a = .ok f ∧
      f.span.start.offset ≤ f.span.stop.offset ∧ Span.Row (f.directives.map (·.2)) := by
  unfold FormatString.ofArgument? at spelled
  split at spelled
  · rename_i literal
    cases spelled
    have strings : ∀ t ∈ a.code, t.kind = .string := by
      simpa [Argument.isStringLiteral] using literal
    have file := span_file read inside
    obtain ⟨bodies, content⟩ := bodies_ok read inside row strings
    have whole : 0 + (Piece.flatten (Piece.ofText (Located.text a.literalBodies.flatten))).length =
        a.literalBodies.flatten.length := by
      rw [Piece.flatten_ofText, Located.text, List.length_map, Nat.zero_add]
    obtain ⟨parts, spans, _⟩ := placePieces_ok content file (source_ne_nil _) whole
    rw [List.drop_zero] at parts spans
    rw [format, bodies, ok_bind, argumentSpan_ok row, ok_bind, parts]
    exact ⟨literal, rfl, row.argument.2, spans.sublist (directives_sublist _)⟩
  · cases spelled

end Guarded

end FormatLint
