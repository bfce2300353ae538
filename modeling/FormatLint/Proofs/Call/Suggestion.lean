import FormatLint.Proofs.Call.Splitting
import FormatLint.Proofs.Revision.TurnedText
import FormatLint.Proofs.Token.Collapse
import FormatLint.Proofs.Token.Lossless

/-!
The call that is suggested in place of one whose format is a name. It repeats the text in front of the
format with one space for each run of blanks. `Call.suggested_repeats_iff` says when it has the tokens of
that text: if no line comment stands there, since that would take in the rest of the call, and no token
that collapsing changes.
-/

namespace FormatLint

theorem forall_getLast?_append_cons {α : Type} {p : α → Prop} {front rest : List α} {a : α}
    (here : p a) (later : ∀ b ∈ rest.getLast?, p b) : ∀ b ∈ (front ++ a :: rest).getLast?, p b := by
  intro b final
  rw [List.getLast?_append, List.getLast?_cons] at final
  cases ends : rest.getLast? with
  | none =>
      rw [ends] at final
      obtain rfl := Option.some.inj final
      exact here
  | some other =>
      rw [ends] at final
      obtain rfl := Option.some.inj final
      exact later _ ends

/-- In front of an argument comes a comma, or else the opening parenthesis. -/
theorem ArgumentList.Spread.exists_lead {arguments : List Argument} {inner : List Token}
    (spread : Spread arguments inner) {i : Nat} {a : Argument} (found : arguments[i]? = some a) :
    a.Trimmed ∧ ∃ lead back, inner = lead ++ (a.tokens ++ back) ∧
      ∀ t ∈ lead.getLast?, t.kind = .comment ∨ t.kind = .comma := by
  induction spread generalizing i with
  | bare => cases found
  | @last only lead trail trimmed _ before _ =>
      cases i with
      | zero =>
          cases found
          refine ⟨trimmed, lead, trail, List.append_assoc _ _ _, fun t final => ?_⟩
          exact .inl (before t (List.mem_of_mem_getLast? final))
      | succ i => cases found
  | @next first second later lead trail rest comma trimmed _ before _ separates _ ih =>
      cases i with
      | zero =>
          cases found
          refine ⟨trimmed, lead, trail ++ comma :: rest, by simp, fun t final => ?_⟩
          exact .inl (before t (List.mem_of_mem_getLast? final))
      | succ i =>
          obtain ⟨trimmed, lead', back, rfl, last⟩ := ih found
          refine ⟨trimmed, lead ++ first.tokens ++ trail ++ comma :: lead', back, by simp, ?_⟩
          exact forall_getLast?_append_cons (.inr separates) last

theorem Argument.Trimmed.tokens_of_single {a : Argument} (trimmed : a.Trimmed) {x : Token}
    (single : a.single? = some x) : a.tokens = [x] := by
  have alone : a.code = [x] := by
    unfold single? at single
    split at single
    · rename_i code
      rw [code, Option.some.inj single]
    · cases single
  obtain ⟨t, rest, tokens⟩ := List.exists_cons_of_ne_nil a.nonempty
  have first : t.isComment = false := by
    have head : a.first = t := by simp [first, tokens]
    simpa [Token.isComment, head] using trimmed.1
  rw [code, tokens, Token.code_cons first, List.cons.injEq] at alone
  obtain ⟨rfl, empty⟩ := alone
  rcases List.eq_nil_or_concat' rest with rfl | ⟨front, last, rfl⟩
  · exact tokens
  · have final : a.last = last := by simp [Argument.last, tokens]
    have comments : (∀ t ∈ front, t.isComment = true) ∧ last.isComment = true := by
      simpa [Token.code] using empty
    have other := trimmed.2
    rw [final] at other
    exact absurd (Token.isComment_iff.1 comments.2) other

namespace Call

/-- The tokens from the name of a call to one of its arguments. -/
theorem exists_between {table : PrinterTable} {tokens : List Token} {c : Call} {a : Argument}
    (found : c ∈ Mention.calls (Mention.ofTokens table tokens)) {i : Nat}
    (listed : c.arguments[i]? = some a) :
    a.Trimmed ∧ c.name.kind = .ident ∧ ∃ front between back,
      tokens = front ++ c.name :: (between ++ (a.tokens ++ back)) ∧ between ≠ [] ∧
        ∀ t ∈ between.getLast?, t.kind ∈ [.comment, .openParen, .comma] := by
  rw [Mention.calls_eq] at found
  obtain ⟨s, member, call⟩ := List.mem_filterMap.1 found
  have read := Mention.call?_eq_some_iff.1 call
  obtain ⟨whole, tracked⟩ := Site.mem_ofTokens_iff.1 member
  obtain ⟨stop, _, _, spread⟩ := @Mention.spread_of_readCall (s.opening :: s.later) 0 _ _ _
    rfl tracked.opens _ read
  obtain ⟨_, _, _, _, _, rfl⟩ := Mention.readCall_eq_call_iff.1 read
  obtain ⟨trimmed, lead, back, inner, last⟩ := spread.exists_lead listed
  have later : s.later = lead ++ (a.tokens ++ (back ++ s.later.drop (stop - 1))) := by
    rw [List.extract_eq_take_drop] at inner
    conv => lhs; rw [← List.take_append_drop (stop - 1) s.later]
    rw [← List.append_assoc a.tokens, ← List.append_assoc lead, ← inner]
    rfl
  refine ⟨trimmed, tracked.ident, s.before, s.comments ++ s.opening :: lead,
    back ++ s.later.drop (stop - 1), ?_, by simp, ?_⟩
  · rw [← whole, Site.tokens]
    conv => lhs; rw [later]
    simp
  · refine forall_getLast?_append_cons (by simp [tracked.opens]) fun t final => ?_
    rcases last t final with comment | comma
    · simp [comment]
    · simp [comma]

end Call

namespace Token

theorem exists_laid_between {s : Source} {front between back : List Token} {t x : Token}
    (read : tokenize s.name s.content = .ok (front ++ t :: (between ++ x :: back)))
    (code : x.kind ≠ .eof) :
    ∃ gap o tail, Laid gap o (t :: between) tail ∧ (∃ rest, Head.Form x.kind x.lexeme rest) ∧
      (∀ g ∈ gap x, Lexeme.isGap g = true) ∧
      s.slice t.span.start.offset x.span.start.offset = textOf gap (t :: between) ++ gap x := by
  obtain ⟨gap, lexical, blanks, parts, whole, laid, _⟩ := exists_laid_of_tokenize read
  obtain ⟨later, rfl⟩ : ∃ later, lexical = front ++ t :: (between ++ x :: later) := by
    rcases List.eq_nil_or_concat' back with rfl | ⟨later, last, rfl⟩
    · rw [← List.cons_append, ← List.append_assoc] at parts
      cases (List.append_inj' parts rfl).2
      exact absurd rfl code
    · have regroup : front ++ t :: (between ++ x :: (later ++ [last])) =
          front ++ t :: (between ++ x :: later) ++ [last] := by simp
      rw [regroup] at parts
      exact ⟨later, (List.append_inj' parts rfl).1.symm⟩
  obtain ⟨start, bare, laid, text⟩ := (laid_append.1 laid).2.strip
  rw [← List.cons_append] at laid text
  obtain ⟨inside, behind⟩ := laid_append.1 laid
  rw [textOf_append, ← List.cons_append, text, textOf_append] at whole
  cases behind with
  | cons blank _ stop _ form _ =>
      refine ⟨bare, _, _, inside, ⟨_, form⟩, blank, ?_⟩
      have lengths : x.span.start.offset =
          (textOf gap front ++ (gap t ++ (textOf bare (t :: between) ++ bare x))).length := by
        rw [stop, start]
        simp only [List.length_append]
        omega
      have content : s.content = textOf gap front ++ (gap t ++ (textOf bare (t :: between) ++ bare x)) ++
          (x.lexeme ++ textOf bare later ++ blanks) := by
        rw [whole, textOf_cons bare x]
        simp
      rw [Source.slice, content, lengths, List.take_left, start, Nat.zero_add, ← List.length_append,
        ← List.append_assoc, List.drop_left]

end Token

theorem filterMap_eq_self_iff {α : Type} {f : α → Option α} {l : List α} :
    l.filterMap f = l ↔ ∀ a ∈ l, f a = some a := by
  induction l with
  | nil => simp
  | cons a l ih =>
      rw [List.forall_mem_cons, ← ih]
      cases left : f a with
      | none =>
          rw [List.filterMap_cons_none left]
          constructor
          · intro same
            have shorter := List.length_filterMap_le f l
            rw [same, List.length_cons] at shorter
            omega
          · rintro ⟨⟨⟩, _⟩
      | some b => simp [List.filterMap_cons_some left]

theorem exists_first {α : Type} {p : α → Prop} [DecidablePred p] {l : List α}
    (inhabited : ¬ ∀ a ∈ l, ¬ p a) :
    ∃ before a after, l = before ++ a :: after ∧ p a ∧ ∀ b ∈ before, ¬ p b := by
  cases found : l.find? p with
  | none => exact absurd (by simpa using found) inhabited
  | some a =>
      obtain ⟨holds, before, after, whole, skipped⟩ := List.find?_eq_some_iff_append.1 found
      exact ⟨before, a, after, whole, by simpa using holds, by simpa using skipped⟩

theorem Word.code_squeeze (words : List Word) :
    code (words.filterMap squeeze?) = (code words).filterMap squeeze? := by
  rw [code, code, List.filter_filterMap, List.filterMap_filter]
  congr 1
  funext w
  by_cases gone : w.2.squeeze = []
  · simp [squeeze?, gone]
  · by_cases comment : w.1 = .comment <;> simp [squeeze?, gone, comment]

namespace Call

/-- The call with a format that prints the name. -/
def suggested (c : Call) (source : Source) (format : Argument) (name : Text) : Text :=
  c.start source format ++ "\"%s\", " ++ name ++ ")"

def suggestedWords (name : Text) : List Word :=
  [(.string, "\"%s\""), Word.comma, (.ident, name), Word.closeParen]

theorem start_eq (c : Call) (source : Source) (format : Argument) :
    ∃ pad, (pad = [] ∨ pad = [.char ' ']) ∧ c.start source format =
      (source.slice c.name.span.start.offset format.span.start.offset).squeeze ++ pad := by
  rw [start]
  split
  · exact ⟨[.char ' '], .inr rfl, rfl⟩
  · exact ⟨[], .inl rfl, (List.append_nil _).symm⟩

theorem scan_suggestedWords {name rest : Text} (form : Head.Form .ident name rest) :
    Scan ("\"%s\", " ++ name ++ ")") (suggestedWords name) [] := by
  have literal : Head.Form .string "\"%s\"" [] := Head.read_iff_form.1 rfl
  have comma : Head.Form .comma "," [] := Head.read_iff_form.1 rfl
  have closing : Head.Form .closeParen ")" [] := Head.read_iff_form.1 rfl
  have starts : ∀ g ∈ name.head?, Lexeme.isGap g = false := by
    intro g first
    exact Lexeme.isGap_of_solid (Spelling.solid_of_ident form g (List.mem_of_mem_head? first)).1
  have last : Scan ")" [Word.closeParen] [] := .single (by decide) closing
  have named : Scan (name ++ ")") [(.ident, name), Word.closeParen] [] :=
    .word starts (form.bounded (by decide) (by decide)) last
  have spaced : Scan (" " ++ (name ++ ")")) [(.ident, name), Word.closeParen] [] := .gaps (by decide) named
  have listed : Scan ("," ++ (" " ++ (name ++ ")"))) [Word.comma, (.ident, name), Word.closeParen] [] :=
    .word (by decide) (comma.delimited _ (.inl (by decide))) spaced
  have whole := Scan.word (by decide) (literal.delimited _ (.inl (by decide))) listed
  simpa [Text.ofString, suggestedWords] using whole

theorem check_named {c : Call} {a : Argument} {x : Token} (s : Source) (format : c.format? = some a)
    (tokens : a.tokens = [x]) (named : x.kind = .ident) :
    (c.check s).diagnostics = [.nonLiteralFormat (c.start s a) a.span (some x.lexeme)] := by
  have code : a.code = [x] := by simp [Argument.code, Token.code, tokens, Token.isComment, named]
  have literal : FormatString.ofArgument? a = none := by
    simp [FormatString.ofArgument?, Argument.isStringLiteral, code, named]
  have single : a.single? = some x := by rw [Argument.single?, code]
  rw [check, format]
  dsimp only
  rw [literal, single]
  simp [Option.filter_some, named]

end Call

/-- A word is left as it is if collapsing leaves its text. -/
theorem Word.squeeze?_eq_some_iff {w : Word} (nonempty : w.2 ≠ []) :
    w.squeeze? = some w ↔ w.2.Spaced := by
  rw [← Text.squeeze_eq_self_iff]
  constructor
  · intro kept
    unfold squeeze? at kept
    split at kept
    · cases kept
    · exact congrArg Prod.snd (Option.some.inj kept)
  · intro same
    rw [squeeze?, same, if_neg nonempty]

theorem Word.squeezed_iff {gap : Token → Text} {o : Nat} {tokens : List Token} {tail : Text}
    (laid : Token.Laid gap o tokens tail) :
    (code (tokens.map Token.word)).filterMap squeeze? = code (tokens.map Token.word) ↔
      ∀ t ∈ Token.code tokens, t.lexeme.Spaced := by
  rw [← Token.code_words, filterMap_eq_self_iff, List.forall_mem_map]
  refine forall₂_congr fun t member => squeeze?_eq_some_iff ?_
  obtain ⟨rest, form⟩ := laid.exists_form t (List.mem_of_mem_filter member)
  exact Lexeme.form_text_ne_nil form

namespace Call

/-- How a suggested call is written: the tokens from the name of the call on, as they lie in the source,
with their blanks collapsed, and behind them what prints the name. -/
structure Suggests (c : Call) (name written : Text) (between : List Token) (gap : Token → Text) (o : Nat)
    (tail blanks suffix : Text) : Prop where
  laid : Token.Laid gap o (c.name :: between) tail
  ident : c.name.kind = .ident
  delimits : ∀ t ∈ (c.name :: between).getLast?, t.kind ∈ [.comment, .openParen, .comma]
  blank : ∀ g ∈ blanks, g.isBlank = true
  written : written = (Token.textOf gap (c.name :: between) ++ blanks).squeeze ++ suffix
  scan : Scan suffix (suggestedWords name) []
  noDot : suffix.head? ≠ some (.char '.')
  noFeed : ∀ g ∈ suffix, g ≠ .char '\n'

theorem exists_suggests {s : Source} {table : PrinterTable} {tokens : List Token} {c : Call}
    {a : Argument} {x : Token} (read : Token.tokenize s.name s.content = .ok tokens)
    (found : c ∈ Mention.calls (Mention.ofTokens table tokens)) (format : c.format? = some a)
    (single : a.single? = some x) (named : x.kind = .ident) :
    a.tokens = [x] ∧ ∃ front between back gap o tail blanks suffix,
      tokens = front ++ c.name :: (between ++ x :: back) ∧
      c.Suggests x.lexeme (c.suggested s a x.lexeme) between gap o tail blanks suffix := by
  obtain ⟨trimmed, name, front, between, back, rfl, filled, last⟩ := exists_between found format
  have alone := trimmed.tokens_of_single single
  have start : a.span.start = x.span.start := by simp [Argument.span, alone, Span.through]
  rw [alone, List.singleton_append] at read
  obtain ⟨gap, o, tail, laid, ⟨rest, form⟩, blank, slice⟩ :=
    Token.exists_laid_between read (by simp [named])
  obtain ⟨pad, space, written⟩ := c.start_eq s a
  rw [named] at form
  have scan := scan_suggestedWords form
  refine ⟨alone, front, between, back, gap, o, tail, gap x, pad ++ ("\"%s\", " ++ x.lexeme ++ ")"),
    by rw [alone]; rfl, laid, name, ?_, fun g member => Lexeme.isBlank_of_isGap (blank g member),
    ?_, ?_, ?_, ?_⟩
  · obtain ⟨t, later, rfl⟩ := List.exists_cons_of_ne_nil filled
    rw [List.getLast?_cons_cons]
    exact last
  · rw [suggested, written, start, slice]
    simp
  · rcases space with rfl | rfl
    · exact scan
    · exact .gap (by decide) scan
  · rcases space with rfl | rfl <;> rintro ⟨⟩
  · have lead : ∀ g ∈ pad, g ≠ .char '\n' := by
      rcases space with rfl | rfl <;> decide
    have quoted : ∀ g ∈ Text.ofString "\"%s\", ", g ≠ .char '\n' := by decide
    have closing : ∀ g ∈ Text.ofString ")", g ≠ .char '\n' := by decide
    have solid : ∀ g ∈ x.lexeme, g ≠ .char '\n' := by
      rintro g inside rfl
      exact absurd (Spelling.solid_of_ident form _ inside).1 (by decide)
    simp only [List.forall_mem_append]
    exact ⟨lead, ⟨quoted, solid⟩, closing⟩

section

variable {c : Call} {name written : Text} {between : List Token} {gap : Token → Text} {o : Nat}
  {tail blanks suffix : Text}

theorem Suggests.form_name (suggests : c.Suggests name written between gap o tail blanks suffix) :
    ∃ rest, Head.Form .ident c.name.lexeme rest := by
  rw [← suggests.ident]
  exact suggests.laid.exists_form c.name List.mem_cons_self

/-- Line comments apart, the suggested call is read with the blanks in its tokens collapsed. -/
theorem Suggests.tokenize (suggests : c.Suggests name written between gap o tail blanks suffix)
    (noLine : ∀ t ∈ between, ¬ Text.ofString "//" <+: t.lexeme) (file : Text) :
    ∃ others, Token.tokenize file written = .ok others ∧
      ((Token.code others).map Token.word = (Token.code (c.name :: between)).map Token.word ++
          (suggestedWords name ++ [(.eof, [])]) ↔ ∀ t ∈ Token.code between, t.lexeme.Spaced) := by
  obtain ⟨rest, form⟩ := suggests.form_name
  have all : ∀ t ∈ c.name :: between, ¬ Text.ofString "//" <+: t.lexeme :=
    List.forall_mem_cons.2 ⟨form.noLine (by decide), noLine⟩
  have scan := suggests.laid.scan_squeeze (List.cons_ne_nil _ _) all suggests.delimits suggests.blank
    suggests.noDot suggests.scan
  obtain ⟨others, read, words⟩ := scan.tokenize file Lexeme.gaps_nil
  rw [List.append_nil, ← suggests.written] at read
  refine ⟨others, read, ?_⟩
  have code : c.name.isComment = false := by simp [Token.isComment, suggests.ident]
  have spaced := Text.squeeze_eq_self_iff.1
    (Text.squeeze_solid fun g inside => (Spelling.solid_of_ident form g inside).1)
  have kept := Word.squeezed_iff suggests.laid
  rw [Token.code_cons code, List.forall_mem_cons] at kept
  have suggestion : Word.code (suggestedWords name) = suggestedWords name := rfl
  have final : Word.code [(TokenKind.eof, [])] = [(.eof, [])] := rfl
  rw [Token.code_words, words, Word.code_append, Word.code_append, final, suggestion,
    Word.code_squeeze, Token.code_words, List.append_assoc, List.append_left_inj, kept]
  exact ⟨fun both => both.2, fun later => ⟨spaced, later⟩⟩

theorem Suggests.tokenize_swallowed
    (suggests : c.Suggests name written between gap o tail blanks suffix)
    (line : ¬ ∀ t ∈ between, ¬ Text.ofString "//" <+: t.lexeme) (file : Text) :
    ∃ others, Token.tokenize file written = .ok others ∧
      (Token.code others).map Token.word ≠ (Token.code (c.name :: between)).map Token.word ++
        (suggestedWords name ++ [(.eof, [])]) := by
  obtain ⟨before, t, after, rfl, line, first⟩ := exists_first line
  obtain ⟨rest, form⟩ := suggests.form_name
  have all : ∀ t ∈ c.name :: before, ¬ Text.ofString "//" <+: t.lexeme :=
    List.forall_mem_cons.2 ⟨form.noLine (by decide), first⟩
  have laid := suggests.laid
  rw [← List.cons_append] at laid
  obtain ⟨comment, swallowed⟩ := laid.scan_swallowed blanks all line suggests.noFeed
  obtain ⟨others, read, words⟩ := swallowed.tokenize file Lexeme.gaps_nil
  rw [List.append_nil, List.cons_append, ← suggests.written] at read
  refine ⟨others, read, fun same => ?_⟩
  -- what is read in front of the comment is too short
  have length := congrArg List.length same
  have shorter := List.length_filterMap_le Word.squeeze? (Word.code ((c.name :: before).map Token.word))
  have swallows : Word.code [(TokenKind.comment, comment)] = [] := rfl
  have final : Word.code [(TokenKind.eof, [])] = [(.eof, [])] := rfl
  rw [Token.code_words, words, Word.code_append, Word.code_append, final, swallows, Word.code_squeeze,
    ← List.cons_append, Token.code_words, List.map_append, Word.code_append] at length
  simp only [suggestedWords, List.length_append, List.length_cons, List.length_nil] at length
  omega

end

/-- The call that is suggested in place of one whose format is a name is always read. Its code is that of
the source from the name of the call up to the format, and then the format that prints the name, exactly
if no line comment stands there and every blank in another token is a single space. -/
theorem suggested_repeats_iff {s : Source} {table : PrinterTable} {tokens : List Token} {c : Call}
    {a : Argument} {x : Token} (read : Token.tokenize s.name s.content = .ok tokens)
    (found : c ∈ Mention.calls (Mention.ofTokens table tokens)) (format : c.format? = some a)
    (single : a.single? = some x) (named : x.kind = .ident) (file : Text) :
    (∃ d, (c.check s).diagnostics = [d] ∧ d.problem = .nonLiteralFormat ∧ d.help =
      some ("To safely print a string, use `" ++ c.suggested s a x.lexeme ++ "` instead.")) ∧
    ∃ front between back others, tokens = front ++ c.name :: (between ++ x :: back) ∧
      Token.tokenize file (c.suggested s a x.lexeme) = .ok others ∧
      ((Token.code others).map Token.word = (Token.code (c.name :: between)).map Token.word ++
          (suggestedWords x.lexeme ++ [(.eof, [])]) ↔
        (∀ t ∈ between, ¬ Text.ofString "//" <+: t.lexeme) ∧
          ∀ t ∈ Token.code between, t.lexeme.Spaced) := by
  obtain ⟨alone, front, between, back, gap, o, tail, blanks, suffix, whole, suggests⟩ :=
    exists_suggests read found format single named
  refine ⟨⟨_, check_named s format alone named, rfl, ?_⟩, front, between, back, ?_⟩
  · simp [Diagnostic.nonLiteralFormat, suggested, Text.ofString]
  by_cases noLine : ∀ t ∈ between, ¬ Text.ofString "//" <+: t.lexeme
  · obtain ⟨others, again, same⟩ := suggests.tokenize noLine file
    exact ⟨others, whole, again, same.trans ⟨fun spaced => ⟨noLine, spaced⟩, fun kept => kept.2⟩⟩
  · obtain ⟨others, again, differ⟩ := suggests.tokenize_swallowed noLine file
    exact ⟨others, whole, again, fun same => absurd same differ, fun kept => absurd kept.1 noLine⟩

/-- A call with a fixed argument on a line of its own and a comment behind it. -/
def spacedCall : List Lexeme :=
  [⟨[], .ident, "snprintf"⟩, ⟨[], .openParen, "("⟩, ⟨[], .ident, "b"⟩, ⟨[], .comma, ","⟩,
   ⟨"\n  ", .other, "10"⟩, ⟨" ", .comment, "/* to  b */"⟩, ⟨[], .comma, ","⟩, ⟨" ", .ident, "f"⟩,
   ⟨[], .closeParen, ")"⟩, ⟨[], .punct, ";"⟩]

theorem tokenize_spacedCall :
    Token.tokenize [] "snprintf(b,\n  10 /* to  b */, f);" =
      .ok (Token.place [] .first (spacedCall ++ [⟨[], .eof, []⟩])) := by
  have chain : Lexeme.Chain spacedCall [] := by
    repeat' first
      | exact .nil
      | refine .cons (by decide) (by decide) (Head.read_iff_form.1 rfl) ?_
  rw [show Text.ofString "snprintf(b,\n  10 /* to  b */, f);" = Lexeme.flatten spacedCall by decide,
    Lexeme.tokenize_words chain]

theorem suggested_repeats_iff_spacedCall :
    ∃ (tokens : List Token) (c : Call) (a : Argument) (x : Token),
      Token.tokenize [] "snprintf(b,\n  10 /* to  b */, f);" = .ok tokens ∧
      c ∈ Mention.calls (Mention.ofTokens .standard tokens) ∧ c.format? = some a ∧
      a.single? = some x ∧ x.kind = .ident ∧
      c.suggested ⟨[], "snprintf(b,\n  10 /* to  b */, f);"⟩ a x.lexeme =
        "snprintf(b, 10 /* to b */, \"%s\", f)" ∧
      ∃ front between back others, tokens = front ++ c.name :: (between ++ x :: back) ∧
        Token.tokenize [] "snprintf(b, 10 /* to b */, \"%s\", f)" = .ok others ∧
        ((Token.code others).map Token.word = (Token.code (c.name :: between)).map Token.word ++
            (suggestedWords x.lexeme ++ [(.eof, [])]) ↔
          (∀ t ∈ between, ¬ Text.ofString "//" <+: t.lexeme) ∧
            ∀ t ∈ Token.code between, t.lexeme.Spaced) := by
  obtain ⟨c, a, x, calls, format, single, named, written⟩ : ∃ (c : Call) (a : Argument) (x : Token),
      Mention.calls (Mention.ofTokens .standard
        (Token.place [] .first (spacedCall ++ [⟨[], .eof, []⟩]))) = [c] ∧ c.format? = some a ∧
      a.single? = some x ∧ x.kind = .ident ∧
      c.suggested ⟨[], "snprintf(b,\n  10 /* to  b */, f);"⟩ a x.lexeme =
        "snprintf(b, 10 /* to b */, \"%s\", f)" := ⟨_, _, _, rfl, rfl, rfl, rfl, by cbv⟩
  have found := List.mem_singleton_self c
  rw [← calls] at found
  obtain ⟨_, repeats⟩ := @suggested_repeats_iff ⟨[], "snprintf(b,\n  10 /* to  b */, f);"⟩ _ _ _ _ _
    tokenize_spacedCall found format single named []
  rw [written] at repeats
  exact ⟨_, c, a, x, tokenize_spacedCall, found, format, single, named, written, repeats⟩

/-- A call with a comment up to the end of its first line. -/
def commentedCall : List Lexeme :=
  [⟨[], .ident, "printf"⟩, ⟨[], .openParen, "("⟩, ⟨[], .comment, "// out"⟩, ⟨"\n ", .ident, "x"⟩,
   ⟨[], .closeParen, ")"⟩, ⟨[], .punct, ";"⟩]

/-- The comment takes in the format, the name and the parenthesis of the suggested call. -/
theorem suggested_swallowed :
    ∃ (tokens : List Token) (c : Call) (a : Argument) (x : Token) (between back others : List Token),
      Token.tokenize [] "printf(// out\n x);" = .ok tokens ∧
      c ∈ Mention.calls (Mention.ofTokens .standard tokens) ∧ c.format? = some a ∧
      a.tokens = [x] ∧ x.kind = .ident ∧ tokens = c.name :: (between ++ x :: back) ∧
      (c.check ⟨[], "printf(// out\n x);"⟩).diagnostics.map (·.help) =
        [some (Text.ofString "To safely print a string, use `printf(// out\"%s\", x)` instead.")] ∧
      Token.tokenize [] "printf(// out\"%s\", x)" = .ok others ∧
      (Token.code others).map Token.word ≠ (Token.code (c.name :: between)).map Token.word ++
        (suggestedWords x.lexeme ++ [(.eof, [])]) := by
  have chain : Lexeme.Chain commentedCall [] := by
    repeat' first
      | exact .nil
      | refine .cons (by decide) (by decide) (Head.read_iff_form.1 rfl) ?_
  have read : Token.tokenize [] "printf(// out\n x);" =
      .ok (Token.place [] .first (commentedCall ++ [⟨[], .eof, []⟩])) := by
    rw [show Text.ofString "printf(// out\n x);" = Lexeme.flatten commentedCall by decide,
      Lexeme.tokenize_words chain]
  have swallowed : Lexeme.Chain
      [⟨[], .ident, "printf"⟩, ⟨[], .openParen, "("⟩, ⟨[], .comment, "// out\"%s\", x)"⟩] [] := by
    repeat' first
      | exact .nil
      | refine .cons (by decide) (by decide) (Head.read_iff_form.1 rfl) ?_
  exact ⟨_, _, _, _, (Token.place [] .first commentedCall).extract 1 3, _, _, read,
    List.mem_singleton_self _, rfl, rfl, rfl, rfl, by cbv, Lexeme.tokenize_words swallowed [], by decide⟩

end Call

end FormatLint
