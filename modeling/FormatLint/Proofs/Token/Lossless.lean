import FormatLint.Proofs.Analysis.Exact
import FormatLint.Proofs.Token.Laid
import FormatLint.Proofs.Token.StringLiteral

/-!
Nothing of a text is lost in its tokens, and they are where they say. `Token.Covers` says what that
means; `Token.tokenize_covers` says that the tokens of a file cover its text, and that a form that is
never closed is where the fault says.
-/

namespace FormatLint

/-- Both ends of the span are in the text, where the table of lines has them. -/
structure Span.Exact (s : Source) (span : Span) : Prop where
  file : span.file = s.name
  start : s.locate span.start.offset = .ok span.start
  stop : s.locate span.stop.offset = .ok span.stop

namespace Token

/-- The tokens are the text, with nothing but gaps between them: they stand in order, each is what the
text has at its span, and the only empty one is the last, at the end of the text. -/
structure Covers (s : Source) (tokens : List Token) : Prop where
  spans : ∀ t ∈ tokens, t.span.Exact s
  ordered : tokens.Pairwise fun first second => first.span.stop.offset ≤ second.span.start.offset
  lexemes : ∀ t ∈ tokens, t.lexeme = s.slice t.span.start.offset t.span.stop.offset
  nonempty : ∀ t ∈ tokens, t.kind ≠ .eof → t.span.start.offset < t.span.stop.offset
  gaps : ∀ offset g, s.content[offset]? = some g →
    (∀ t ∈ tokens, ¬ (t.span.start.offset ≤ offset ∧ offset < t.span.stop.offset)) →
      Lexeme.isGap g = true
  ends : ∃ lexical eof, tokens = lexical ++ [eof] ∧ (∀ t ∈ lexical, t.kind ≠ .eof) ∧
    eof.kind = .eof ∧ eof.span.start.offset = s.content.length ∧
      eof.span.stop.offset = s.content.length

theorem Laid.gap_of_uncovered {gap : Token → Text} {o : Nat} {tokens : List Token} {rest : Text}
    (laid : Laid gap o tokens rest) {offset : Nat} {g : Glyph}
    (found : (textOf gap tokens)[offset]? = some g)
    (uncovered : ∀ t ∈ tokens,
      ¬ (t.span.start.offset ≤ o + offset ∧ o + offset < t.span.stop.offset)) :
    Lexeme.isGap g = true := by
  induction laid generalizing offset with
  | nil => simp at found
  | @cons o t later rest blank begins start stop form next ih =>
      rw [textOf_cons] at found
      by_cases before : offset < (gap t).length
      · rw [List.getElem?_append_left before] at found
        exact blank g (List.mem_of_getElem? found)
      · rw [List.getElem?_append_right (by omega)] at found
        have behind : (gap t).length + t.lexeme.length ≤ offset := by
          have outside := uncovered t List.mem_cons_self
          omega
        rw [List.getElem?_append_right (by omega)] at found
        have place : t.span.stop.offset + (offset - (gap t).length - t.lexeme.length) = o + offset := by
          omega
        refine ih found fun other member => ?_
        rw [place]
        exact uncovered other (List.mem_cons_of_mem t member)

/-- The lexemes of a file lie in its text. Behind them comes a gap, and the empty token at the end. -/
theorem exists_laid_of_tokenize {file text : Text} {tokens : List Token}
    (read : tokenize file text = .ok tokens) :
    ∃ gap lexical blanks, tokens = lexical ++
        [⟨.eof, [], ⟨file, Position.first.after text, Position.first.after text⟩⟩] ∧
      text = textOf gap lexical ++ blanks ∧ Laid gap 0 lexical blanks ∧
      ∀ g ∈ blanks, Lexeme.isGap g = true := by
  obtain ⟨lexemes, cut, rfl⟩ := tokenize_eq_ok_iff.1 read
  obtain ⟨chain, blanks, rfl, rfl, chained, blank⟩ := Lexeme.ofText_eq_ok_iff.1 cut
  obtain ⟨gap, laid, text, _⟩ := exists_laid file .first chained blanks
  refine ⟨gap, place file .first chain, blanks, ?_, by rw [text], laid, blank⟩
  rw [place_append, Position.after_append]
  rfl

theorem span_exact {s : Source} {front word : Text} (begins : front ++ word <+: s.content) :
    Span.Exact s ⟨s.name, Position.first.after front, Position.first.after (front ++ word)⟩ where
  file := rfl
  start := (Source.locate_of_exact
    (Source.exact_after ((List.prefix_append front word).trans begins))).2
  stop := (Source.locate_of_exact (Source.exact_after begins)).2

theorem slice_of_span {s : Source} {front word : Text} (begins : front ++ word <+: s.content) :
    s.slice (Position.first.after front).offset (Position.first.after (front ++ word)).offset =
      word := by
  obtain ⟨back, whole⟩ := begins
  have zero : Position.first.offset = 0 := rfl
  rw [Position.after_offset, Position.after_offset, zero, Nat.zero_add, Nat.zero_add, Source.slice,
    ← whole, List.take_left, List.drop_left]

theorem covers_of_tokenize {s : Source} {tokens : List Token}
    (read : tokenize s.name s.content = .ok tokens) : Covers s tokens := by
  have placed := span_of_tokenize read
  obtain ⟨gap, lexical, blanks, parts, whole, laid, blank⟩ := exists_laid_of_tokenize read
  have final : (Position.first.after s.content).offset = s.content.length := by
    rw [Position.after_offset]
    exact Nat.zero_add _
  have inside : ∀ t ∈ tokens, t.span.stop.offset ≤ s.content.length := by
    intro t member
    obtain ⟨front, begins, span⟩ := placed t member
    have length := begins.length_le
    have zero : Position.first.offset = 0 := rfl
    rw [span, Position.after_offset]
    omega
  refine ⟨?_, ?_, ?_, ?_, ?_, ?_⟩
  · intro t member
    obtain ⟨front, begins, span⟩ := placed t member
    rw [span]
    exact span_exact begins
  · rw [parts] at inside ⊢
    refine List.pairwise_append.2 ⟨laid.pairwise, List.pairwise_singleton _ _, ?_⟩
    intro t member eof last
    rw [List.mem_singleton.1 last]
    exact final ▸ inside t (List.mem_append_left _ member)
  · intro t member
    obtain ⟨front, begins, span⟩ := placed t member
    rw [span]
    exact (slice_of_span begins).symm
  · intro t member code
    rw [parts] at member
    rcases List.mem_append.1 member with member | last
    · exact (laid.start_ge t member).2
    · rw [List.mem_singleton.1 last] at code
      exact absurd rfl code
  · intro offset g found uncovered
    rw [whole] at found
    by_cases before : offset < (textOf gap lexical).length
    · rw [List.getElem?_append_left before] at found
      refine laid.gap_of_uncovered found fun t member => ?_
      rw [Nat.zero_add]
      exact uncovered t (parts ▸ List.mem_append_left _ member)
    · rw [List.getElem?_append_right (by omega)] at found
      exact blank g (List.mem_of_getElem? found)
  · exact ⟨lexical, _, parts, laid.kind_ne_eof, rfl, final, final⟩

/-- The tokens of a file cover its text. If it has none, the first form that is never closed is where
the fault says. -/
theorem tokenize_covers (s : Source) :
    match tokenize s.name s.content with
    | .ok tokens => Covers s tokens
    | .error fault => fault.span.Exact s := by
  cases read : tokenize s.name s.content with
  | ok tokens => exact covers_of_tokenize read
  | error fault =>
      unfold tokenize at read
      split at read
      · cases read
      · rename_i unclosed cut
        cases read
        dsimp only
        rw [← Position.after_append]
        exact span_exact (Lexeme.ofText_unclosed cut)

end Token

end FormatLint
