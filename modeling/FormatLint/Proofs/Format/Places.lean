import FormatLint.Proofs.Format.Tiling
import FormatLint.Proofs.Guarded.Formats

/-!
Where a format stands in the source. `FormatString.Sited` says that every glyph of the content is the
one of the source at its offset, that the spans of specifiers go from their percent signs to the place
behind their last glyphs, and that breaks are where a literal begins. `FormatString.ofArgument?_sited`
says so of every format of a file.
-/

namespace FormatLint

namespace Located

theorem ofText_getElem? (p : Position) (t : Text) (k : Nat) :
    (ofText p t)[k]? = t[k]?.map fun g => ⟨g, p.after (t.take k)⟩ := by
  induction t generalizing p k with
  | nil => rfl
  | cons g rest ih =>
      cases k with
      | zero => rfl
      | succ k => exact ih (p.step g) k

/-- A glyph of the text `body` that stands behind the text `lead`, in a content in which glyphs from
elsewhere stand around `body`. -/
theorem offset_within {before after : List Located} {lead body : Text} {i : Nat} {g : Located}
    (inside : i < body.length)
    (found : (before ++ (ofText (Position.first.after lead) body ++ after))[before.length + i]? =
      some g) :
    g.position.offset = lead.length + i := by
  have long : (ofText (Position.first.after lead) body).length = body.length := by
    rw [← List.length_map (f := Located.glyph), ← text, text_ofText]
  rw [List.getElem?_append_right (Nat.le_add_right _ _), Nat.add_sub_cancel_left,
    List.getElem?_append_left (by omega), ofText_getElem?] at found
  obtain ⟨glyph, _, rfl⟩ := Option.map_eq_some_iff.1 found
  rw [Position.after_offset, Position.after_offset, List.length_take_of_le (Nat.le_of_lt inside)]
  exact congrArg (· + i) (Nat.zero_add _)

/-- A glyph that stands in the source is the one at its offset, and the table of lines has the places
before and behind it. -/
theorem Exact.source {s : Source} {g : Located} (exact : g.Exact s) :
    s.content[g.position.offset]? = some g.glyph ∧ g.position = s.position g.position.offset ∧
      g.position.step g.glyph = s.position (g.position.offset + 1) := by
  obtain ⟨front, ⟨back, whole⟩, place⟩ := exact
  have offset : g.position.offset = front.length := by
    rw [place, Position.after_offset]
    exact Nat.zero_add _
  have before : s.content = front ++ ([g.glyph] ++ back) := by rw [← whole, List.append_assoc]
  refine ⟨?_, ?_, ?_⟩
  · rw [offset, before, List.getElem?_append_right (Nat.le_refl _), Nat.sub_self]
    rfl
  · rw [offset, Source.position_eq_after before, place]
  · have behind := Source.position_eq_after whole.symm
    rw [List.length_append, List.length_singleton] at behind
    rw [offset, behind, place, Position.after_append]
    rfl

end Located

/-- A part that lies within one of the parts that a list is made of. -/
theorem extract_within {α : Type} {front body back : List α} {k n : Nat}
    (inside : k + n ≤ body.length) :
    (front ++ (body ++ back)).extract (front.length + k) (front.length + k + n) =
      body.extract k (k + n) := by
  rw [List.extract_eq_take_drop, List.extract_eq_take_drop, List.drop_append,
    Nat.add_sub_cancel_left, Nat.add_sub_cancel_left, Nat.add_sub_cancel_left,
    List.drop_eq_nil_of_le (Nat.le_add_right _ _), List.nil_append,
    List.drop_append_of_le_length (by omega),
    List.take_append_of_le_length (by rw [List.length_drop]; omega)]

namespace FormatString

theorem starts_eq_map (o : Nat) (bodies : List Text) :
    starts o bodies =
      (List.range bodies.length).map fun i => o + (bodies.take i).flatten.length := by
  induction bodies generalizing o with
  | nil => rfl
  | cons body later ih =>
      rw [starts, ih, List.length_cons, List.range_succ_eq_map, List.map_cons, List.map_map]
      simp [Function.comp_def, Nat.add_assoc]

/-- Where the glyphs of the content stand in the source. -/
def offsets (f : FormatString) : List Nat := f.content.map (·.position.offset)

/-- The format stands in the source, its content put together from the given insides of literals. -/
structure Sited (f : FormatString) (s : Source) (bodies : List Text) : Prop where
  text : f.text = bodies.flatten
  increasing : f.offsets.Pairwise (· < ·)
  glyphs : f.offsets.map (s.content[·]?) = f.text.map some
  spans : ∀ p ∈ f.parts, p.piece.isText = false →
    p.start < p.stop ∧ f.text[p.start]? = some (.char '%') ∧
      ∃ first last, f.offsets[p.start]? = some first ∧ f.offsets[p.stop - 1]? = some last ∧
        p.span = ⟨s.name, s.position first, s.position (last + 1)⟩
  slices : ∀ p ∈ f.parts, p.piece.isText = false → ∀ front body back,
    bodies = front ++ body :: back → front.flatten.length ≤ p.start →
      p.stop ≤ front.flatten.length + body.length →
        s.slice p.span.start.offset p.span.stop.offset = p.piece.source
  breaks : f.breaks =
    (List.range (bodies.length - 1)).map fun i => (bodies.take (i + 1)).flatten.length
  borders : ∀ b ∈ f.breaks, ∃ front back, front ≠ [] ∧ back ≠ [] ∧ bodies = front ++ back ∧
    f.text.take b = front.flatten ∧ f.text.drop b = back.flatten

section Breaks

variable {bodies : List Text}

theorem tail_starts (bodies : List Text) : (starts 0 bodies).tail =
    (List.range (bodies.length - 1)).map fun i => (bodies.take (i + 1)).flatten.length := by
  rw [starts_eq_map]
  cases bodies with
  | nil => rfl
  | cons body later =>
      rw [List.length_cons, List.range_succ_eq_map, List.map_cons, List.tail_cons, List.map_map,
        Nat.add_sub_cancel]
      simp [Function.comp_def]

/-- No literal lies on both sides of a break. -/
theorem borders_of_starts {b : Nat} (isBreak : b ∈ (starts 0 bodies).tail) :
    ∃ front back, front ≠ [] ∧ back ≠ [] ∧ bodies = front ++ back ∧
      bodies.flatten.take b = front.flatten ∧ bodies.flatten.drop b = back.flatten := by
  rw [tail_starts] at isBreak
  obtain ⟨i, listed, rfl⟩ := List.mem_map.1 isBreak
  have inside := List.mem_range.1 listed
  have whole := congrArg List.flatten (List.take_append_drop (i + 1) bodies)
  rw [List.flatten_append] at whole
  refine ⟨bodies.take (i + 1), bodies.drop (i + 1), ?_, ?_, (List.take_append_drop _ _).symm, ?_, ?_⟩
  · rw [ne_eq, List.take_eq_nil_iff]
    rintro (member | rfl)
    · cases member
    · cases inside
  · rw [ne_eq, List.drop_eq_nil_iff]
    omega
  · rw [← whole, List.take_left]
  · rw [← whole, List.drop_left]

end Breaks

section Placed

variable {s : Source} {f : FormatString}
  (placed : f.parts = PlacedPiece.place f.span 0 f.content (Piece.ofText f.text))
include placed

theorem percent_at_start {p : PlacedPiece} (member : p ∈ f.parts) (specifier : p.piece.isText = false) :
    f.text[p.start]? = some (.char '%') := by
  obtain ⟨before, after, _, whole, start, _⟩ := exists_around placed member
  have percent : p.piece.source.head? = some (.char '%') := by
    cases piece : p.piece with
    | text glyphs =>
        rw [piece] at specifier
        cases specifier
    | percent => rfl
    | directive d => rfl
  obtain ⟨rest, source⟩ := List.head?_eq_some_iff.1 percent
  rw [whole, start, List.getElem?_append_right (Nat.le_refl _), Nat.sub_self, source]
  rfl

theorem source_within {p : PlacedPiece} (member : p ∈ f.parts) {front body back : Text} {k n : Nat}
    (text : f.text = front ++ (body ++ back)) (start : p.start = front.length + k)
    (stop : p.stop = p.start + n) (fits : k + n ≤ body.length) :
    p.piece.source = body.extract k (k + n) := by
  rw [slice_eq_source placed member, text, stop, start, extract_within fits]

theorem exists_ends (row : Located.Row s f.content) (file : f.span.file = s.name) {p : PlacedPiece}
    (member : p ∈ f.parts) :
    p.start < p.stop ∧ ∃ first last, f.content[p.start]? = some first ∧
      f.content[p.stop - 1]? = some last ∧
        p.span = ⟨s.name, s.position first.position.offset,
          s.position (last.position.offset + 1)⟩ := by
  obtain ⟨before, after, pieces, whole, start, span⟩ := exists_around placed member
  have present : 0 < p.piece.source.length :=
    List.length_pos_iff.2 (Guarded.source_ne_nil f.text p.piece (by simp [pieces]))
  have length : f.content.length = f.text.length := by rw [text, Located.text, List.length_map]
  have inside : p.start + p.piece.source.length ≤ f.content.length := by
    rw [length, whole, start, List.length_append, List.length_append]
    omega
  obtain ⟨first, last, begins, ends, ranged⟩ := Guarded.part_ends present inside f.span
  have stop : p.stop - p.start = p.piece.source.length := Nat.add_sub_cancel_left ..
  have one := (row.exact first (List.mem_of_getElem? begins)).source
  have two := (row.exact last (List.mem_of_getElem? ends)).source
  refine ⟨Nat.lt_add_of_pos_right present, first, last, begins, ends, ?_⟩
  rw [span, List.extract_eq_take_drop, stop, ranged, file, ← one.2.1, ← two.2.2]

end Placed

section Literals

variable {s : Source} {tokens : List Token} {a : Argument} {f : FormatString}

/-- The content before, inside and behind a literal. -/
theorem content_around (spelled : ofArgument? a = some f) {front back : List Text} {body : Text}
    (bodies : a.code.map Token.body = front ++ body :: back) :
    ∃ (t : Token) (before after : List Located), t ∈ a.code ∧ t.body = body ∧
      f.content = before ++ (t.literalBody ++ after) ∧ before.length = front.flatten.length := by
  obtain ⟨_, content, _⟩ := ofArgument?_inversion spelled
  obtain ⟨earlier, rest, code, fronts, rests⟩ := List.map_eq_append_iff.1 bodies
  obtain ⟨t, later, rfl, here, _⟩ := List.map_eq_cons_iff.1 rests
  refine ⟨t, (earlier.map Token.literalBody).flatten, (later.map Token.literalBody).flatten,
    by simp [code], here, ?_, ?_⟩
  · rw [content, Argument.literalBodies, code]
    simp
  · have glyphs (t : Token) : t.literalBody.length = t.body.length := by
      rw [← Token.text_literalBody, Located.text, List.length_map]
    rw [← fronts]
    simp [List.length_flatten, Function.comp_def, glyphs]

/-- The span of a part that lies within a literal is that of its own glyphs. -/
theorem slice_within (read : Token.tokenize s.name s.content = .ok tokens)
    (inside : a.tokens ⊆ tokens) (row : Located.Row s f.content) (file : f.span.file = s.name)
    (spelled : ofArgument? a = some f) {p : PlacedPiece} (member : p ∈ f.parts)
    {front back : List Text} {body : Text}
    (bodies : a.code.map Token.body = front ++ body :: back)
    (low : front.flatten.length ≤ p.start) (high : p.stop ≤ front.flatten.length + body.length) :
    s.slice p.span.start.offset p.span.stop.offset = p.piece.source := by
  have placed := parts_eq_place spelled
  have strings := (ofArgument?_inversion spelled).1
  obtain ⟨t, before, after, coded, rfl, content, length⟩ := content_around spelled bodies
  obtain ⟨encoding, outside, _, _, _, ⟨behind, whole⟩, place⟩ :=
    Token.literalBody_place read (inside (List.mem_of_mem_filter coded)) (strings t coded)
  obtain ⟨positive, first, last, begins, ends, span⟩ := exists_ends placed row file member
  obtain ⟨k, start⟩ := Nat.exists_eq_add_of_le low
  obtain ⟨n, stop⟩ := Nat.exists_eq_add_of_lt positive
  rw [← length] at start
  have fits : k + (n + 1) ≤ t.body.length := by omega
  have text : f.text = Located.text before ++ (t.body ++ Located.text after) := by
    rw [FormatString.text, content, ← Token.text_literalBody]
    simp [Located.text]
  have written : p.piece.source = t.body.extract k (k + (n + 1)) :=
    source_within placed member text (by rw [start, Located.text, List.length_map]) stop fits
  -- The literal is one stretch of the source, so the ends of the part fix what is between them.
  rw [place] at content
  rw [content, start] at begins
  rw [content, stop, start, Nat.add_assoc before.length, Nat.add_sub_cancel] at ends
  have lowest := Located.offset_within (by omega) begins
  have highest := Located.offset_within (by omega) ends
  have source : s.content = (outside ++ (encoding ++ [.char '"'])) ++ (t.body ++ behind) := by
    rw [← whole, List.append_assoc _ t.body]
  change (s.content.take p.span.stop.offset).drop p.span.start.offset = _
  rw [List.drop_take, ← List.extract_eq_take_drop, span, written, ← extract_within fits, ← source,
    ← lowest]
  congr 1
  rw [lowest, Nat.add_assoc]
  exact congrArg (· + 1) highest

theorem map_text_literalBodies (a : Argument) :
    a.literalBodies.map Located.text = a.code.map Token.body := by
  rw [Argument.literalBodies, List.map_map]
  exact List.map_congr_left fun t _ => Token.text_literalBody t

theorem sited_of_row (read : Token.tokenize s.name s.content = .ok tokens)
    (inside : a.tokens ⊆ tokens) (row : Located.Row s f.content) (file : f.span.file = s.name)
    (spelled : ofArgument? a = some f) : f.Sited s (a.code.map Token.body) where
  text := by
    rw [FormatString.text, (ofArgument?_inversion spelled).2.1, text_flatten, map_text_literalBodies]
  increasing := List.pairwise_map.2 row.ordered
  glyphs := by
    rw [offsets, List.map_map, FormatString.text, Located.text, List.map_map]
    exact List.map_congr_left fun g member => (row.exact g member).source.1
  spans p member specifier := by
    have placed := parts_eq_place spelled
    obtain ⟨positive, first, last, begins, ends, span⟩ := exists_ends placed row file member
    refine ⟨positive, percent_at_start placed member specifier, _, _, ?_, ?_, span⟩
    · rw [offsets, List.getElem?_map, begins]
      rfl
    · rw [offsets, List.getElem?_map, ends]
      rfl
  slices p member _ front body back := slice_within read inside row file spelled member
  breaks := by
    obtain ⟨_, _, breaks, _⟩ := ofArgument?_inversion spelled
    rw [breaks, map_text_literalBodies, tail_starts]
  borders b isBreak := by
    obtain ⟨_, content, breaks, _⟩ := ofArgument?_inversion spelled
    rw [breaks, map_text_literalBodies] at isBreak
    rw [FormatString.text, content, text_flatten, map_text_literalBodies]
    exact borders_of_starts isBreak

/-- Every format of a file stands in the file. Its content is put together from what its literals
have between their quotes. -/
theorem ofArgument?_sited (read : Token.tokenize s.name s.content = .ok tokens)
    (taken : a.tokens.Sublist tokens) (literal : a.isStringLiteral = true) :
    ∃ bodies f, List.Forall₂ (fun (t : Token) (body : Text) => ∃ encoding, .char '"' ∉ encoding ∧
        t.lexeme = encoding ++ .char '"' :: (body ++ [.char '"'])) a.code bodies ∧
      ofArgument? a = some f ∧ f.Sited s bodies := by
  have inside : a.tokens ⊆ tokens := taken.subset
  have strings : ∀ t ∈ a.code, t.kind = .string := by
    simpa [Argument.isStringLiteral] using literal
  have row : Located.Row s a.literalBodies.flatten :=
    (Guarded.bodies_ok read inside ((Token.inRow_of_tokenize read).sublist taken) strings).2
  have file := Guarded.span_file read inside
  refine ⟨a.code.map Token.body, _, ?_, if_pos literal,
    sited_of_row read inside row file (if_pos literal)⟩
  rw [List.forall₂_map_right_iff, List.forall₂_same]
  intro t coded
  obtain ⟨encoding, _, noQuote, lexeme, _⟩ :=
    Token.literalBody_place read (inside (List.mem_of_mem_filter coded)) (strings t coded)
  exact ⟨encoding, noQuote, lexeme⟩

end Literals

/-- A directive that goes on behind a comment, an empty literal and a line feed. -/
def straddling : List Lexeme :=
  [⟨[], .string, "L\"%-\""⟩, ⟨[.char ' '], .comment, "/* c */"⟩, ⟨[], .string, "\"\""⟩,
    ⟨[.char '\n'], .string, "\"5d%%%y\""⟩]

theorem ofArgument?_sited_straddling :
    ∃ (s : Source) (tokens : List Token) (a : Argument),
      s.content = "L\"%-\" /* c */\"\"\n\"5d%%%y\"" ∧
      Token.tokenize s.name s.content = .ok tokens ∧ a.tokens.Sublist tokens ∧
      a.isStringLiteral = true ∧ ∃ bodies f,
        List.Forall₂ (fun (t : Token) (body : Text) => ∃ encoding, .char '"' ∉ encoding ∧
          t.lexeme = encoding ++ .char '"' :: (body ++ [.char '"'])) a.code bodies ∧
        ofArgument? a = some f ∧ f.Sited s bodies ∧
        f.offsets = [2, 3, 17, 18, 19, 20, 21, 22] ∧ f.breaks = [2, 2] ∧
        f.parts.map (fun p => (p.span.start.offset, p.span.stop.offset)) =
          [(2, 19), (19, 21), (21, 23)] := by
  have chain : Lexeme.Chain straddling [] := by
    repeat' first
      | exact .nil
      | refine .cons (by decide) (by decide) (Head.read_iff_form.1 rfl) ?_
  have read := Lexeme.tokenize_words chain []
  have taken : (Token.place [] .first straddling).Sublist
      (Token.place [] .first (straddling ++ [⟨[], .eof, []⟩])) := by
    decide
  obtain ⟨bodies, f, spelled, format, sited⟩ :=
    @ofArgument?_sited ⟨[], _⟩ _ ⟨Token.place [] .first straddling, by decide⟩ read taken rfl
  refine ⟨_, _, _, ?_, read, taken, rfl, bodies, f, spelled, format, sited, ?_⟩
  · rfl
  · cases format
    exact ⟨by cbv, by cbv, by cbv⟩

end FormatString

end FormatLint
