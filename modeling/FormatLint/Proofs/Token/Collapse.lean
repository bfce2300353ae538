import FormatLint.Proofs.Cast.Grammar
import FormatLint.Proofs.Text.Collapse
import FormatLint.Proofs.Token.Laid
import FormatLint.Proofs.Token.Scan
import FormatLint.Proofs.Token.Spelled

/-!
Tokens whose text is written again with one space for each run of blanks. What this does to the text of
one token, `Head.Form.collapse`, and to tokens that lie one behind the other: without line comments
their words are read again, each with its own runs collapsed, `Token.Laid.scan_collapse`, and behind the
first line comment nothing else is read, `Token.Laid.scan_swallowed`.
-/

namespace FormatLint

open Text (collapse collapse_blank collapse_cons collapse_solid Edged)

namespace Quote

variable {quote : Quote} {b : Bool} {word body : Text}

theorem isBlank_mark (quote : Quote) : quote.mark.isBlank = false := by
  cases quote <;> decide

theorem Encloses.collapse (encloses : quote.Encloses body) : quote.Encloses (collapse b body) := by
  induction encloses generalizing b with
  | nil => exact .nil
  | @escape g rest _ ih =>
      rw [collapse_cons (by decide)]
      cases blank : g.isBlank with
      | true =>
          rw [collapse_blank blank, if_neg Bool.false_ne_true]
          exact .escape ih
      | false =>
          rw [collapse_cons blank]
          exact .escape ih
  | @plain g rest noSlash noQuote noFeed _ ih =>
      cases blank : g.isBlank with
      | true =>
          rw [collapse_blank blank]
          split
          · exact ih
          · exact .plain (by decide) (by cases quote <;> decide) (by decide) ih
      | false =>
          rw [collapse_cons blank]
          exact .plain noSlash noQuote noFeed ih

theorem solid_of_encoding {encoding : Text} (encoded : encoding = [] ∨ encoding ∈ quote.encodings) :
    ∀ g ∈ encoding, g.isBlank = false := by
  have all : ∀ name ∈ quote.encodings, ∀ g ∈ name, g.isBlank = false := by
    cases quote <;> decide
  rcases encoded with rfl | encodes
  · simp
  · exact all encoding encodes

/-- A literal is still one. -/
theorem IsLiteral.collapse (isLiteral : quote.IsLiteral word) :
    quote.IsLiteral (collapse b word) := by
  obtain ⟨encoding, body, encoded, encloses, rfl⟩ := isLiteral
  have mark := quote.isBlank_mark
  refine ⟨encoding, Text.collapse false body, encoded, encloses.collapse, ?_⟩
  rw [Text.collapse_append, collapse_solid (solid_of_encoding encoded), collapse_cons mark,
    Text.collapse_append, collapse_cons mark]
  rfl

theorem IsLiteral.edged (isLiteral : quote.IsLiteral word) : Edged word := by
  obtain ⟨encoding, body, encoded, _, rfl⟩ := isLiteral
  refine ⟨by simp, fun g first => ?_, fun g last => ?_⟩
  · cases encoding with
    | nil =>
        obtain rfl := Option.some.inj first
        exact quote.isBlank_mark
    | cons other encoding =>
        obtain rfl := Option.some.inj first
        exact solid_of_encoding encoded _ List.mem_cons_self
  · rw [← List.cons_append, ← List.append_assoc, List.getLast?_concat] at last
    obtain rfl := Option.some.inj last
    exact quote.isBlank_mark

end Quote

theorem Text.IsLine.of_noFeed {t : Text} (noFeed : ∀ g ∈ t, g ≠ .char '\n') : IsLine t [] := by
  refine ⟨fun front back whole => ?_, .inl rfl⟩
  exact absurd rfl (noFeed (.char '\n') (by simp [whole]))

namespace Head

variable {kind : TokenKind} {word rest : Text} {b : Bool}

/-- The first mark that closes a block comment stays the first one. -/
theorem blockComment_collapse {t body tail : Text} (closed : blockComment t = some (body, tail)) :
    blockComment (collapse b t) = some (collapse b body, collapse false tail) := by
  fun_induction blockComment t generalizing body tail b with
  | case1 => cases closed
  | case2 rest =>
      cases closed
      rw [collapse_cons (by decide), collapse_cons (by decide), collapse_cons (by decide),
        collapse_cons (by decide)]
      simp [blockComment, collapse]
  | case3 g rest opens ih =>
      obtain ⟨⟨inner, later⟩, found, equal⟩ := Option.map_eq_some_iff.1 closed
      cases equal
      cases blank : g.isBlank with
      | true =>
          rw [collapse_blank blank, collapse_blank blank]
          cases b with
          | true => exact ih found
          | false =>
              rw [if_neg Bool.false_ne_true, if_neg Bool.false_ne_true, blockComment_cons (by simp),
                ih found]
              rfl
      | false =>
          have apart : ¬ (g = .char '*' ∧ (collapse false rest).head? = some (.char '/')) := by
            rintro ⟨rfl, slash⟩
            cases rest with
            | nil => cases slash
            | cons next rest =>
                cases space : next.isBlank with
                | true =>
                    rw [collapse_blank space] at slash
                    cases slash
                | false =>
                    rw [collapse_cons space] at slash
                    obtain rfl := Option.some.inj slash
                    exact opens rest rfl rfl
          rw [collapse_cons blank, collapse_cons blank, blockComment_cons apart, ih found]
          rfl

theorem isBlank_of_isNumberPart {g : Glyph} (part : isNumberPart g = true) : g.isBlank = false := by
  cases g with
  | raw byte => cases part
  | char c =>
      by_cases dot : c = '.'
      · subst dot
        decide
      · apply (Spelling.solid_of_isWordPart _).1
        simp only [isNumberPart, isWordPart, isLetter, Glyph.satisfies_char, Char.isAlphanum,
          Bool.or_eq_true, beq_iff_eq] at part ⊢
        grind

theorem isBlank_of_isSign {g : Glyph} (sign : isSign g = true) : g.isBlank = false := by
  cases g with
  | raw byte => cases sign
  | char c =>
      simp only [isSign, Glyph.satisfies_char, Bool.or_eq_true, beq_iff_eq] at sign
      rcases sign with rfl | rfl <;> decide

theorem isBlank_of_isAsciiDigit {g : Glyph} (digit : isAsciiDigit g = true) :
    g.isBlank = false := by
  apply isBlank_of_isNumberPart
  cases g with
  | raw byte => cases digit
  | char c =>
      have range : c.isDigit = true := digit
      simp [isNumberPart, Char.isAlphanum, range]

theorem numberTail_solid (t : Text) : ∀ g ∈ (numberTail t).1, g.isBlank = false := by
  fun_induction numberTail t with
  | case1 => simp
  | case2 g part => simpa using isBlank_of_isNumberPart part
  | case3 => simp
  | case4 g next rest signed body tail read ih =>
      rw [Bool.and_eq_true] at signed
      rw [read] at ih
      have exponent := isBlank_of_isNumberPart (isNumberPart_of_isExponent signed.1)
      exact List.forall_mem_cons.2 ⟨exponent, List.forall_mem_cons.2
        ⟨isBlank_of_isSign signed.2, ih⟩⟩
  | case5 g next rest _ part body tail read ih =>
      rw [read] at ih
      exact List.forall_mem_cons.2 ⟨isBlank_of_isNumberPart part, ih⟩
  | case6 => simp

theorem number?_solid {t tail : Text} (counted : number? t = some (word, tail)) :
    ∀ g ∈ word, g.isBlank = false := by
  unfold number? at counted
  split at counted
  · split at counted
    · rename_i digit
      cases counted
      exact List.forall_mem_cons.2 ⟨by decide, List.forall_mem_cons.2
        ⟨isBlank_of_isAsciiDigit digit, numberTail_solid _⟩⟩
    · cases counted
  · split at counted
    · rename_i digit
      cases counted
      exact List.forall_mem_cons.2 ⟨isBlank_of_isAsciiDigit digit, numberTail_solid _⟩
    · cases counted
  · cases counted

/-- A lexeme that is neither comment nor literal has no blanks, or is one itself. -/
theorem Form.solid (form : Form kind word rest) (noComment : kind ≠ .comment)
    (noLiteral : ∀ quote : Quote, kind ≠ quote.kind) :
    (∃ g, word = [g] ∧ g.isBlank = true) ∨ ∀ g ∈ word, g.isBlank = false := by
  cases form with
  | lineComment => exact absurd rfl noComment
  | blockComment => exact absurd rfl noComment
  | @literal quote => exact absurd rfl (noLiteral quote)
  | ident start parts =>
      refine .inr (List.forall_mem_cons.2 ⟨?_, fun g member => ?_⟩)
      · exact (Spelling.solid_of_isWordPart (isWordPart_of_isWordStart start)).1
      · exact (Spelling.solid_of_isWordPart (parts g member)).1
  | number counted => exact .inr (number?_solid counted)
  | @symbol g more _ _ _ _ _ _ spelled =>
      rcases spelled with ⟨_, listed⟩ | ⟨_, rfl⟩
      · have marks : ∀ mark ∈ longPunctuators, ∀ g ∈ mark, g.isBlank = false := by decide
        exact .inr (marks _ listed)
      · cases blank : g.isBlank with
        | true => exact .inl ⟨g, rfl, blank⟩
        | false => exact .inr (by simpa using blank)

/-- A lexeme that is no line comment is one blank, or has none at its ends. -/
theorem Form.edged (form : Form kind word rest) (noLine : ¬ Text.ofString "//" <+: word) :
    (∃ g, word = [g] ∧ g.isBlank = true) ∨ Edged word := by
  by_cases comment : kind = .comment
  · subst comment
    rcases form_comment_iff.1 form with ⟨line, rfl, _⟩ | ⟨inner, rfl, isClosed⟩
    · exact absurd (List.prefix_append _ line) noLine
    · obtain ⟨body, rfl⟩ := isClosed.closed
      have ends : Text.ofString "/*" ++ (body ++ Text.ofString "*/") =
          Text.ofString "/*" ++ body ++ [.char '*'] ++ [.char '/'] := by simp [Text.ofString]
      refine .inr ⟨List.cons_ne_nil _ _, fun g first => ?_, fun g last => ?_⟩
      · obtain rfl := Option.some.inj first
        decide
      · rw [ends, List.getLast?_concat] at last
        obtain rfl := Option.some.inj last
        decide
  · by_cases literal : ∃ quote : Quote, kind = quote.kind
    · obtain ⟨quote, rfl⟩ := literal
      exact .inr (form_literal_iff.1 form).edged
    · rw [not_exists] at literal
      have nonempty := (read_lexeme (read_of_form form)).2
      exact (form.solid comment literal).imp_right (.of_solid nonempty)

/-- A lexeme that is no line comment is read as its kind when its blanks are collapsed. -/
theorem Form.collapse {rest' : Text} (form : Form kind word rest)
    (noLine : ¬ Text.ofString "//" <+: word) (edged : Edged word)
    (next : kind ≠ .comment → Succession kind rest rest') : Form kind (collapse b word) rest' := by
  by_cases comment : kind = .comment
  · subst comment
    rcases form_comment_iff.1 form with ⟨line, rfl, _⟩ | ⟨inner, rfl, isClosed⟩
    · exact absurd (List.prefix_append _ line) noLine
    · have closed : Head.blockComment (inner ++ []) = some (inner, []) :=
        blockComment_eq_some_iff.2 isClosed
      rw [List.append_nil] at closed
      have collapsed := blockComment_collapse (b := false) closed
      change Form _ (Text.collapse b (.char '/' :: .char '*' :: inner)) _
      rw [collapse_cons (by decide), collapse_cons (by decide)]
      apply Form.blockComment
      apply blockComment_replace rest'
      rw [List.append_nil]
      exact collapsed
  · by_cases literal : ∃ quote : Quote, kind = quote.kind
    · obtain ⟨quote, rfl⟩ := literal
      exact form_literal_iff.2 (form_literal_iff.1 form).collapse
    · rw [not_exists] at literal
      rcases form.solid comment literal with ⟨g, rfl, blank⟩ | solid
      · have solid := edged.first g rfl
        rw [blank] at solid
        cases solid
      · rw [collapse_solid solid]
        exact form.succeed (next comment)

theorem Form.noLine (form : Form kind word rest) (noComment : kind ≠ .comment) :
    ¬ Text.ofString "//" <+: word := by
  rintro ⟨body, rfl⟩
  have found := read_of_form form
  change read (.char '/' :: .char '/' :: (body ++ rest)) = _ at found
  rw [read] at found
  exact noComment (Head.lexeme.inj found).1.symm

/-- Where a text that begins behind a lexeme is collapsed, it may still stand there. -/
theorem Succession.collapse {tail tail' : Text} (code : kind ≠ .comment)
    (noDot : tail'.head? ≠ some (.char '.')) (t : Text)
    (next : t = [] → Succession kind tail tail') :
    Succession kind (t ++ tail) (Text.collapse false t ++ tail') := by
  cases t with
  | nil => exact next rfl
  | cons g t =>
      cases blank : g.isBlank with
      | true =>
          rw [collapse_blank blank]
          exact .boundary code (by decide)
      | false =>
          rw [collapse_cons blank]
          refine .same fun _ second => ?_
          cases t with
          | nil => exact absurd second noDot
          | cons other t =>
              cases space : other.isBlank with
              | true =>
                  rw [collapse_blank space] at second
                  cases second
              | false =>
                  rw [collapse_cons space] at second
                  exact second

end Head

/-- The word with its blanks collapsed, unless nothing is left. -/
def Word.squeeze? (w : Word) : Option Word :=
  if w.2.squeeze = [] then none else some (w.1, w.2.squeeze)

theorem Lexeme.isBlank_of_isGap {g : Glyph} (gap : isGap g = true) : g.isBlank = true := by
  cases g with
  | raw byte => cases gap
  | char c =>
      have all : [' ', '\t', '\r', '\n', '\x0B', '\x0C'].all isBlank = true := by decide
      exact List.all_eq_true.1 all c (by simpa [isGap] using gap)

theorem Lexeme.isGap_of_solid {g : Glyph} (solid : g.isBlank = false) : isGap g = false := by
  refine Bool.eq_false_iff.2 fun gap => ?_
  rw [isBlank_of_isGap gap] at solid
  cases solid

namespace Token.Laid

open Text (endsBlank endsBlank_append)

variable {gap : Token → Text} {o : Nat} {tokens : List Token} {tail tail' : Text} {b : Bool}

theorem head?_collapse_blanks {t next : Text} (blanks : ∀ g ∈ t, g.isBlank = true)
    (noDot : next.head? ≠ some (.char '.')) :
    (collapse b t ++ next).head? ≠ some (.char '.') := by
  cases listed : collapse b t with
  | nil => exact noDot
  | cons g more =>
      have space := Text.eq_space_of_mem_collapse_blanks (b := b) (g := g) blanks (by simp [listed])
      subst space
      rintro ⟨⟩

theorem spaces_of_blanks {t : Text} (blanks : ∀ g ∈ t, g.isBlank = true) :
    ∀ g ∈ collapse b t, Lexeme.isGap g = true := by
  intro g member
  rw [Text.eq_space_of_mem_collapse_blanks blanks member]
  decide

/-- Without line comments tokens are read again, each with its blanks collapsed. -/
theorem scan_collapse (laid : Laid gap o tokens tail)
    (noLine : ∀ t ∈ tokens, ¬ Text.ofString "//" <+: t.lexeme)
    (noDot : tail'.head? ≠ some (.char '.'))
    (next : endsBlank b (textOf gap tokens) = false →
      ∀ last ∈ tokens.getLast?, last.kind ≠ .comment → Head.Succession last.kind tail tail') :
    Scan (collapse b (textOf gap tokens)) ((tokens.map word).filterMap Word.squeeze?) tail' := by
  induction laid generalizing b with
  | nil => exact .nil
  | @cons o t later tail blank _ _ _ form laid ih =>
      obtain ⟨here, behind⟩ := List.forall_mem_cons.1 noLine
      rw [textOf_cons, endsBlank_append, endsBlank_append] at next
      rw [textOf_cons, Text.collapse_append, Text.collapse_append]
      refine .gaps (spaces_of_blanks fun g member => Lexeme.isBlank_of_isGap (blank g member)) ?_
      generalize endsBlank b (gap t) = b at next
      have below : Scan (collapse (endsBlank b t.lexeme) (textOf gap later))
          ((later.map word).filterMap Word.squeeze?) tail' := by
        refine ih behind fun solid last final code => ?_
        refine next solid last ?_ code
        rw [List.getLast?_cons, Option.mem_def.1 final]
        rfl
      rcases form.edged here with ⟨g, spelled, blank⟩ | edged
      · have blanks : ∀ p ∈ t.lexeme, p.isBlank = true := by simpa [spelled] using blank
        have dropped : t.word.squeeze? = none := by
          rw [Word.squeeze?, word, Text.squeeze, Text.words_blanks blanks]
          rfl
        rw [List.map_cons, List.filterMap_cons_none dropped]
        exact .gaps (spaces_of_blanks blanks) below
      · have solid : endsBlank b t.lexeme = false :=
          Text.endsBlank_of_last edged.nonempty edged.last
        have kept : t.word.squeeze? = some (t.kind, collapse b t.lexeme) := by
          rw [edged.collapse_squeeze]
          exact if_neg edged.squeeze_ne_nil
        rw [solid] at next below ⊢
        rw [List.map_cons, List.filterMap_cons_some kept]
        refine .word ?_ (form.collapse here edged fun code => ?_) below
        · obtain ⟨g, more, spelled⟩ := List.exists_cons_of_ne_nil edged.nonempty
          have first := edged.first g (by simp [spelled])
          rw [spelled, collapse_cons first]
          rintro _ ⟨⟩
          exact Lexeme.isGap_of_solid first
        · refine .collapse code noDot _ fun empty => ?_
          cases laid with
          | nil => exact next rfl t rfl code
          | cons _ _ _ _ form _ =>
              rw [textOf_cons] at empty
              exact absurd (by simp_all) (Lexeme.form_text_ne_nil form)

theorem exists_form (laid : Laid gap o tokens tail) :
    ∀ t ∈ tokens, ∃ rest, Head.Form t.kind t.lexeme rest := by
  induction laid with
  | nil => simp
  | cons _ _ _ _ form _ ih => exact List.forall_mem_cons.2 ⟨⟨_, form⟩, ih⟩

/-- A text that ends with a comment, an opening parenthesis or a comma does not end with a blank. -/
theorem last_solid (laid : Laid gap o tokens tail) (nonempty : tokens ≠ [])
    (noLine : ∀ t ∈ tokens, ¬ Text.ofString "//" <+: t.lexeme)
    (delimits : ∀ t ∈ tokens.getLast?, t.kind ∈ [.comment, .openParen, .comma]) :
    ∀ g ∈ (textOf gap tokens).getLast?, g.isBlank = false := by
  obtain ⟨front, last, rfl⟩ := (List.eq_nil_or_concat' tokens).resolve_left nonempty
  have final := delimits last (by simp)
  obtain ⟨rest, form⟩ := laid.exists_form last (by simp)
  have edged : Edged last.lexeme := by
    refine (form.edged (noLine last (by simp))).resolve_left ?_
    rintro ⟨g, spelled, blank⟩
    obtain ⟨opening, _, comma⟩ := form.delimiter
    simp only [List.mem_cons, List.not_mem_nil, or_false] at final
    rcases final with comment | kind | kind
    · rw [comment, spelled] at form
      rcases Head.form_comment_iff.1 form with ⟨line, whole, _⟩ | ⟨inner, whole, _⟩
      · cases whole
      · cases whole
    · rw [opening kind] at spelled
      cases spelled
      exact absurd blank (by decide)
    · rw [comma kind] at spelled
      cases spelled
      exact absurd blank (by decide)
  have ends : (textOf gap (front ++ [last])).getLast? = last.lexeme.getLast? := by
    rw [textOf_append, textOf_cons, textOf_nil, List.append_nil, ← List.append_assoc,
      List.getLast?_append_of_ne_nil _ edged.nonempty]
  rw [ends]
  exact edged.last

/-- Tokens without line comments that end with one that anything may follow are read again in front of
something else, without the blanks behind them. -/
theorem scan_squeeze {blanks suffix : Text} {words : List Word} (laid : Laid gap o tokens tail)
    (nonempty : tokens ≠ []) (noLine : ∀ t ∈ tokens, ¬ Text.ofString "//" <+: t.lexeme)
    (delimits : ∀ t ∈ tokens.getLast?, t.kind ∈ [.comment, .openParen, .comma])
    (blank : ∀ g ∈ blanks, g.isBlank = true) (noDot : suffix.head? ≠ some (.char '.'))
    (scan : Scan suffix words []) :
    Scan ((textOf gap tokens ++ blanks).squeeze ++ suffix)
      ((tokens.map word).filterMap Word.squeeze? ++ words) [] := by
  have solid := laid.last_solid nonempty noLine delimits
  rw [Text.squeeze_append_blanks blank, Text.squeeze_eq_collapse solid]
  refine .append (laid.scan_collapse noLine (by rwa [List.append_nil]) ?_) scan
  intro _ last final code
  have kind := delimits last final
  simp only [List.mem_cons, List.not_mem_nil, or_false] at kind
  rcases kind with comment | opening | comma
  · exact absurd comment code
  · exact .delimited (.inl (by simp [opening]))
  · exact .delimited (.inl (by simp [comma]))

/-- With no end of a line left, the first line comment takes in all that comes behind it. -/
theorem scan_swallowed {before after : List Token} {t : Token} {suffix : Text}
    (laid : Laid gap o (before ++ t :: after) tail) (rest : Text)
    (noLine : ∀ t ∈ before, ¬ Text.ofString "//" <+: t.lexeme) (line : Text.ofString "//" <+: t.lexeme)
    (noFeed : ∀ g ∈ suffix, g ≠ .char '\n') :
    ∃ comment, Scan ((textOf gap (before ++ t :: after) ++ rest).squeeze ++ suffix)
      ((before.map word).filterMap Word.squeeze? ++ [(.comment, comment)]) [] := by
  obtain ⟨body, spelled⟩ := line
  obtain ⟨front, back⟩ := laid_append.1 laid
  have blanks : ∀ g ∈ gap t, g.isBlank = true := by
    cases back with
    | cons blank => exact fun g member => Lexeme.isBlank_of_isGap (blank g member)
  obtain ⟨v, squeezed, plain⟩ := Text.squeeze_append
    (t := textOf gap before ++ (gap t ++ Text.ofString "//")) (by simp [Text.ofString])
    (by simp [Text.ofString]; decide) (body ++ (textOf gap after ++ rest))
  have whole : textOf gap (before ++ t :: after) ++ rest =
      textOf gap before ++ (gap t ++ Text.ofString "//") ++ (body ++ (textOf gap after ++ rest)) := by
    rw [textOf_append, textOf_cons, ← spelled]
    simp
  have marks : ∀ b, collapse b (Text.ofString "//") = Text.ofString "//" :=
    fun b => collapse_solid (by decide)
  rw [whole, squeezed, Text.collapse_append, Text.collapse_append, marks]
  generalize bound : endsBlank true (textOf gap before) = b
  have comment : Scan (collapse b (gap t) ++ (Text.ofString "//" ++ (v ++ suffix)))
      [(.comment, Text.ofString "//" ++ (v ++ suffix))] [] := by
    have isLine : Text.IsLine (v ++ suffix) [] := by
      apply Text.IsLine.of_noFeed
      intro g member
      exact (List.mem_append.1 member).elim (plain g) (noFeed g)
    refine .gaps (spaces_of_blanks blanks) (.single (by rintro _ ⟨⟩; decide) ?_)
    exact Head.form_comment_iff.2 (.inl ⟨_, rfl, isLine⟩)
  have code : Scan (collapse true (textOf gap before)) ((before.map word).filterMap Word.squeeze?)
      (collapse b (gap t) ++ (Text.ofString "//" ++ (v ++ suffix)) ++ []) := by
    rw [List.append_nil]
    refine front.scan_collapse noLine (head?_collapse_blanks blanks (by rintro ⟨⟩)) ?_
    intro solid last _ code
    rw [bound] at solid
    rw [solid, textOf_cons, ← spelled, List.append_assoc]
    apply Head.Succession.collapse code (by rintro ⟨⟩)
    intro _
    exact .same_glyph last.kind _ _ (by decide)
  have read := code.append comment
  exact ⟨_, by simpa only [List.append_assoc] using read⟩

end Token.Laid

end FormatLint
