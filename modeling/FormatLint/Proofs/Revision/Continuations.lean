import FormatLint.Proofs.Edit.Weave
import FormatLint.Proofs.Revision.Below

/-!
Casts and lines. Writing out casts changes no line end, so every line stays where it is; and a line
that ends with a backslash still does, unless that backslash is the end of an argument that is cast:
`Analysis.typecast_lines`. Between tokens a backslash is a token of its own, so it may be.
-/

namespace FormatLint

namespace Source

theorem behind_line {t : Text} {o i start : Nat} {line : Text}
    (starts : (o :: startsBehind o t)[i]? = some start)
    (lines : (t.splitOnP (· = .char '\n'))[i]? = some line) :
    o ≤ start ∧ ∀ g ∈ t[start - o + line.length]?, g = .char '\n' := by
  induction t generalizing o i start line with
  | nil =>
      cases i with
      | zero =>
          cases starts
          simp
      | succ i => cases starts
  | cons first rest ih =>
      rw [startsBehind_cons] at starts
      rw [List.splitOnP_cons_eq_if_modifyHead] at lines
      by_cases feed : first = .char '\n'
      · simp only [feed, decide_true, ↓reduceIte] at starts lines
        cases i with
        | zero =>
            cases starts
            cases lines
            simp [feed]
        | succ i =>
            obtain ⟨low, ends⟩ := ih starts lines
            refine ⟨by omega, ?_⟩
            rwa [show start - o + line.length = start - (o + 1) + line.length + 1 by omega,
              List.getElem?_cons_succ]
      · simp only [feed, decide_false, Bool.false_eq_true, ↓reduceIte] at starts lines
        obtain ⟨one, below, whole⟩ :=
          List.exists_cons_of_ne_nil (List.splitOnP_ne_nil (· = Glyph.char '\n') rest)
        rw [whole, List.modifyHead_cons] at lines
        cases i with
        -- The first line is that of the rest with a glyph in front, so its end is the same.
        | zero =>
            cases starts
            cases lines
            have front := ih (o := o + 1) (i := 0) rfl (by rw [whole]; rfl)
            simpa using front.2
        | succ i =>
            obtain ⟨low, ends⟩ := ih (o := o + 1) (i := i + 1) starts (by rw [whole]; exact lines)
            refine ⟨by omega, ?_⟩
            rwa [show start - o + line.length = start - (o + 1) + line.length + 1 by omega,
              List.getElem?_cons_succ]

end Source

theorem Token.Laid.start_glyph {gap : Token → Text} {o : Nat} {tokens : List Token} {rest : Text}
    (laid : Laid gap o tokens rest) : ∀ t ∈ tokens,
      ∃ g, (textOf gap tokens)[t.span.start.offset - o]? = some g ∧ Lexeme.isGap g = false := by
  induction laid with
  | nil => simp
  | @cons o t later rest blank begins start stop form next ih =>
      intro other member
      rw [textOf_cons]
      rcases List.mem_cons.1 member with rfl | member
      · obtain ⟨g, more, spelled⟩ := List.exists_cons_of_ne_nil (Lexeme.form_text_ne_nil form)
        refine ⟨g, ?_, begins g (by rw [spelled]; rfl)⟩
        rw [start, Nat.add_sub_cancel_left, List.getElem?_append_right (Nat.le_refl _), spelled]
        simp
      · obtain ⟨g, found, filled⟩ := ih other member
        have bounds := (next.start_ge other member).1
        refine ⟨g, ?_, filled⟩
        rw [List.getElem?_append_right (by omega), List.getElem?_append_right (by omega), ← found]
        congr 1
        omega

theorem Text.getLast?_insert {g : Glyph} {lead behind : Text} (other : g ∉ behind) :
    (lead ++ g :: behind).getLast? = some g ↔ behind = [] := by
  cases behind with
  | nil => simp
  | cons h rest =>
      rw [List.getLast?_append_cons, List.getLast?_cons_cons]
      refine iff_of_false (fun last => other (List.mem_of_getLast? last)) (List.cons_ne_nil h rest)

namespace Analysis

variable {source : Source} {tokens : List Token}

theorem cast_start (read : Token.tokenize source.name source.content = .ok tokens) :
    ∀ cast ∈ (source.analyze .standard).casts,
      ∃ g, source.content[cast.1.span.start.offset]? = some g ∧ Lexeme.isGap g = false := by
  intro cast member
  obtain ⟨gap, lexical, eof, rfl, ends, empty, text, laid, _⟩ := Token.laid_of_tokenize read
  have inside := (castable_analyze read ends laid.ordered).inside cast member
  obtain ⟨g, found, filled⟩ := laid.start_glyph cast.1.first (inside.subset cast.1.first_mem)
  refine ⟨g, ?_, filled⟩
  rw [text, Token.textOf_append]
  rw [Nat.sub_zero] at found
  exact List.getElem?_append_left (List.getElem?_eq_some_iff.1 found).1 ▸ found

theorem castEdits_glyphs (read : Token.tokenize source.name source.content = .ok tokens) :
    ∀ e ∈ (source.analyze .standard).verdicts.flatMap (·.castEdits),
      .char '\n' ∉ e.replacement ∧ .char '\\' ∉ e.replacement ∧ e.replacement ≠ [] := by
  have types : ∀ cast ∈ (source.analyze .standard).casts,
      .char '\n' ∉ cast.2 ∧ .char '\\' ∉ cast.2 := by
    refine casts_types (P := fun cType => .char '\n' ∉ cType ∧ .char '\\' ∉ cType) read
      (by decide) fun d cType => ?_
    refine CType.demand_types (P := fun cType => .char '\n' ∉ cType ∧ .char '\\' ∉ cType)
      (by decide) fun c length => ?_
    cases c <;> rcases length with _ | length <;> try cases length
    all_goals decide
  intro e member
  rw [castEdits_eq] at member
  obtain ⟨cast, listed, edit⟩ := List.mem_flatMap.1 member
  obtain ⟨unfed, plain⟩ := types cast listed
  simp only [Argument.castEdits, List.mem_cons, List.not_mem_nil, or_false] at edit
  rcases edit with rfl | rfl
  · simp [Edit.insertion, unfed, plain, Text.ofString]
  · simp [Edit.insertion, Text.ofString]

/-- At the end of a line something is inserted if and only if an argument that is cast ends there. -/
theorem insertedAt_lineEnd (read : Token.tokenize source.name source.content = .ok tokens)
    {o : Nat} (ends : ∀ g ∈ source.content[o]?, g = .char '\n') :
    (∀ e ∈ (source.analyze .standard).verdicts.flatMap (·.castEdits), e.start ≠ o) ↔
      ∀ cast ∈ (source.analyze .standard).casts, cast.1.span.stop.offset ≠ o := by
  rw [castEdits_eq]
  constructor
  · intro free cast member
    exact free (.insertion cast.1.span.stop.offset ")")
      (List.mem_flatMap.2 ⟨cast, member, by simp [Argument.castEdits]⟩)
  · intro free e member
    obtain ⟨cast, listed, edit⟩ := List.mem_flatMap.1 member
    simp only [Argument.castEdits, List.mem_cons, List.not_mem_nil, or_false] at edit
    rcases edit with rfl | rfl
    -- A cast is opened in front of a token, and no token begins with a line feed.
    · rintro rfl
      obtain ⟨g, found, filled⟩ := cast_start read cast listed
      rw [ends g found] at filled
      revert filled
      decide
    · exact free cast listed

/-- The revised text is the source with pieces between its glyphs. At the end of a line one is put if
and only if an argument that is cast ends there. -/
theorem typecast_weave (read : Token.tokenize source.name source.content = .ok tokens) :
    ∃ revised pieces, (source.analyze .standard).typecast = .ok revised ∧
      revised = Text.weave pieces 0 source.content ∧ (∀ o, .char '\n' ∉ pieces o) ∧
      (∀ o, .char '\\' ∉ pieces o) ∧ ∀ o, (∀ g ∈ source.content[o]?, g = .char '\n') →
        (pieces o = [] ↔ ∀ cast ∈ (source.analyze .standard).casts,
          cast.1.span.stop.offset ≠ o) := by
  obtain ⟨revised, _, made, _⟩ := typecast_reads read
  have glyphs := castEdits_glyphs read
  have atEnd (o : Nat) := insertedAt_lineEnd (o := o) read
  have woven : revised = _ := Edit.applyAll_weave (castEdits_starts source .standard).2
    (fun e member => by
      rw [analyze_source]
      exact (castEdits_inside read e member).2) made
  rw [analyze_source] at woven
  generalize (source.analyze .standard).verdicts.flatMap (·.castEdits) = edits at glyphs atEnd woven
  have listed (e : Edit) : e ∈ sortByPair Edit.sortKey edits ↔ e ∈ edits :=
    (sortByPair_perm Edit.sortKey edits).mem_iff
  refine ⟨revised, _, made, woven, fun o inside => ?_, fun o inside => ?_, fun o ends => ?_⟩
  · obtain ⟨e, member, _, within⟩ := Edit.mem_insertedAt.1 inside
    exact (glyphs e ((listed e).1 member)).1 within
  · obtain ⟨e, member, _, within⟩ := Edit.mem_insertedAt.1 inside
    exact (glyphs e ((listed e).1 member)).2.1 within
  · rw [← atEnd o ends, Edit.insertedAt_eq_nil_iff]
    constructor
    · exact fun empty e member same => (glyphs e member).2.2 (empty e ((listed e).2 member) same)
    · exact fun free e member same => absurd same (free e ((listed e).1 member))

/-- Writing out casts leaves every line where it is. A line that ends with a backslash still does, if
and only if no argument that is cast ends with that backslash. -/
theorem typecast_lines (read : Token.tokenize source.name source.content = .ok tokens) :
    ∃ revised, (source.analyze .standard).typecast = .ok revised ∧
      (Source.lines ⟨source.name, revised⟩).length = source.lines.length ∧
      ∀ (i start : Nat) (line : Text), source.lineStarts[i]? = some start →
        source.lines[i]? = some line → line.getLast? = some (.char '\\') →
        ∃ line', (Source.lines ⟨source.name, revised⟩)[i]? = some line' ∧
          (line'.getLast? = some (.char '\\') ↔
            ∀ cast ∈ (source.analyze .standard).casts,
              cast.1.span.stop.offset ≠ start + line.length) := by
  obtain ⟨revised, pieces, made, rfl, unfed, plain, atEnd⟩ := typecast_weave read
  have lines : Source.lines ⟨source.name, Text.weave pieces 0 source.content⟩ =
      List.zipWith (Text.weave pieces) source.lineStarts source.lines :=
    Text.lines_weave unfed 0 source.content
  refine ⟨_, made, ?_, fun i start line starts found last => ?_⟩
  · rw [lines, List.length_zipWith, source.lines_length, Source.lineCount, Nat.min_self]
  · obtain ⟨front, rfl⟩ := List.getLast?_eq_some_iff.1 last
    obtain ⟨lead, ended⟩ := Text.exists_weave_concat pieces start front (.char '\\')
    obtain ⟨_, feed⟩ := Source.behind_line starts found
    refine ⟨_, by rw [lines, List.getElem?_zipWith, starts, found], ?_⟩
    rw [ended, Text.getLast?_insert (plain _), List.length_append, List.length_singleton,
      ← Nat.add_assoc]
    refine atEnd _ ?_
    simpa [Nat.add_assoc] using feed

def macroCall : List Lexeme :=
  [⟨[], .punct, "#"⟩, ⟨[], .ident, "define"⟩, ⟨[.char ' '], .ident, "P"⟩,
    ⟨[.char ' '], .other, "\\"⟩, ⟨[.char '\n'], .ident, "printf"⟩, ⟨[], .openParen, "("⟩,
    ⟨[], .string, "\"%d\""⟩, ⟨[], .comma, ","⟩, ⟨[.char ' '], .other, "\\"⟩,
    ⟨[.char '\n'], .ident, "x"⟩, ⟨[], .closeParen, ")"⟩]

def brokenCall : List Lexeme :=
  [⟨[], .ident, "printf"⟩, ⟨[], .openParen, "("⟩, ⟨[], .string, "\"%d\""⟩, ⟨[], .comma, ","⟩,
    ⟨[.char ' '], .ident, "x"⟩, ⟨[.char ' '], .other, "\\"⟩, ⟨[.char '\n'], .closeParen, ")"⟩,
    ⟨[], .punct, ";"⟩]

theorem chain_macroCall : Lexeme.Chain macroCall [] := by
  repeat' first
    | exact .nil
    | refine .cons (by decide) (by decide) (Head.read_iff_form.1 rfl) ?_

theorem chain_brokenCall : Lexeme.Chain brokenCall [] := by
  repeat' first
    | exact .nil
    | refine .cons (by decide) (by decide) (Head.read_iff_form.1 rfl) ?_

/-- The second line of the macro goes on, though an argument that is cast begins with its end. -/
theorem typecast_lines_macroCall :
    ∃ revised, (Source.analyze ⟨[], Lexeme.flatten macroCall⟩ .standard).typecast = .ok revised ∧
      (Source.lines ⟨[], revised⟩).length = 3 ∧
      ∃ line, (Source.lines ⟨[], revised⟩)[1]? = some line ∧
        line.getLast? = some (.char '\\') := by
  have read := Lexeme.tokenize_words chain_macroCall []
  obtain ⟨revised, made, length, lines⟩ :=
    @typecast_lines ⟨[], Lexeme.flatten macroCall⟩ _ read
  obtain ⟨line, found, kept⟩ :=
    lines 1 12 "printf(\"%d\", \\" (by decide) (by decide) (by decide)
  have stops : (Source.analyze ⟨[], Lexeme.flatten macroCall⟩ .standard).casts.map
      (·.1.span.stop.offset) = [28] := by
    unfold Source.analyze
    dsimp only
    rw [read]
    cbv
  refine ⟨revised, made, length.trans (by decide), line, found, kept.2 fun cast member => ?_⟩
  have stop : cast.1.span.stop.offset ∈ [28] := by
    rw [← stops]
    exact List.mem_map.2 ⟨cast, member, rfl⟩
  rw [List.mem_singleton.1 stop]
  decide

theorem typecast_brokenCall :
    (Source.analyze ⟨[], Lexeme.flatten brokenCall⟩ .standard).typecast =
      .ok "printf(\"%d\", (int) (x \\)\n);" := by
  have read := Lexeme.tokenize_words chain_brokenCall []
  unfold Source.analyze
  dsimp only
  rw [read]
  cbv

/-- Between tokens a backslash is taken for the end of an argument, and the line does not go on. -/
theorem continuation_broken : ¬ ∀ (source : Source) (tokens : List Token) (revised : Text),
    Token.tokenize source.name source.content = .ok tokens →
    (source.analyze .standard).typecast = .ok revised →
    ∀ (i : Nat) (line : Text), source.lines[i]? = some line →
      line.getLast? = some (.char '\\') →
      ∃ line', (Source.lines ⟨source.name, revised⟩)[i]? = some line' ∧
        line'.getLast? = some (.char '\\') := by
  intro all
  obtain ⟨line, found, last⟩ := all ⟨[], Lexeme.flatten brokenCall⟩ _ _
    (Lexeme.tokenize_words chain_brokenCall []) typecast_brokenCall 0 "printf(\"%d\", x \\"
    (by decide) (by decide)
  have lost : (Source.lines ⟨[], "printf(\"%d\", (int) (x \\)\n);"⟩)[0]? =
      some (Text.ofString "printf(\"%d\", (int) (x \\)") := by
    decide
  rw [lost] at found
  cases found
  revert last
  decide

end Analysis

end FormatLint
