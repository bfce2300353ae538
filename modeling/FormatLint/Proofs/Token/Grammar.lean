import FormatLint.Proofs.Token.Open
import FormatLint.Proofs.Token.StringLiteral

/-!
Literals, comments and lexical errors are those of the grammar. `Token.Grammatical` says which spellings
the tokens of literals and comments have, `Unclosed.FirstIn` which forms of a text are errors;
`Token.tokenize_grammar` says that tokens are grammatical and that reading fails exactly at such a form.
-/

namespace FormatLint

namespace Enclosure

/-- The text begins like the form. -/
def Begins : Enclosure → Text → Prop
  | .literal quote, t => ∃ encoding rest, (encoding = [] ∨ encoding ∈ quote.encodings) ∧
      t = encoding ++ quote.mark :: rest
  | .blockComment, t => Text.ofString "/*" <+: t

/-- The word is the whole form. -/
def IsWhole : Enclosure → Text → Prop
  | .literal quote, word => quote.IsLiteral word
  | .blockComment, word => ∃ inner, word = Text.ofString "/*" ++ inner ∧ inner.IsClosed

/-- How far a form reaches that is never closed. A literal reaches to the end of its line, if that does
not stand behind a backslash, and else, as a comment does, to the end of the text, where a backslash may
be left over that has nothing to take along. -/
inductive Reaches : Enclosure → Text → Text → Prop
  | blockComment {body : Text} : Reaches .blockComment body []
  | lineEnd {quote : Quote} {encoding inner rest : Text}
      (encoded : encoding = [] ∨ encoding ∈ quote.encodings) (encloses : quote.Encloses inner) :
      Reaches (.literal quote) (encoding ++ quote.mark :: inner) (.char '\n' :: rest)
  | textEnd {quote : Quote} {encoding inner : Text}
      (encoded : encoding = [] ∨ encoding ∈ quote.encodings) (encloses : quote.Encloses inner) :
      Reaches (.literal quote) (encoding ++ quote.mark :: inner) []
  | escapedEnd {quote : Quote} {encoding inner : Text}
      (encoded : encoding = [] ∨ encoding ∈ quote.encodings) (encloses : quote.Encloses inner) :
      Reaches (.literal quote) (encoding ++ quote.mark :: (inner ++ [.char '\\'])) []

end Enclosure

/-- The first form of the text that is never closed: lexemes are read up to the blanks in front of it,
there it begins, and no word there is the whole form. -/
structure Unclosed.FirstIn (u : Unclosed) (text : Text) (lexemes : List Lexeme) (blanks tail : Text) :
    Prop where
  before : u.before = Lexeme.flatten lexemes ++ blanks
  whole : text = u.before ++ (u.body ++ tail)
  read : Lexeme.Chain lexemes (blanks ++ (u.body ++ tail))
  blank : ∀ g ∈ blanks, Lexeme.isGap g = true
  begins : u.form.Begins (u.body ++ tail)
  never : ∀ word, word <+: u.body ++ tail → ¬ u.form.IsWhole word
  reaches : u.form.Reaches u.body tail

namespace Head

theorem Open.begins {form : Enclosure} {t body : Text} (opened : Open form t body) : form.Begins t := by
  cases opened with
  | blockComment => exact ⟨_, rfl⟩
  | literal encoded => exact ⟨_, _, encoded, rfl⟩

theorem read_of_whole {form : Enclosure} {word : Text} (whole : form.IsWhole word) (rest : Text) :
    ∃ kind, read (word ++ rest) = .lexeme kind word rest := by
  cases form with
  | literal quote => exact ⟨quote.kind, read_of_form (form_literal_iff.2 whole)⟩
  | blockComment => exact ⟨.comment, read_of_form (form_comment_iff.2 (.inr whole))⟩

theorem Open.never {form : Enclosure} {t body : Text} (opened : Open form t body) {word : Text}
    (begins : word <+: t) : ¬ form.IsWhole word := by
  intro whole
  obtain ⟨rest, rfl⟩ := begins
  obtain ⟨kind, lexed⟩ := read_of_whole whole rest
  rw [read_iff_open.2 opened] at lexed
  cases lexed

theorem Open.reaches {form : Enclosure} {t body : Text} (opened : Open form t body) :
    ∃ tail, t = body ++ tail ∧ form.Reaches body tail := by
  cases opened with
  | blockComment => exact ⟨[], (List.append_nil _).symm, .blockComment⟩
  | @literal quote encoding text encoded never =>
      have parts := literalBody_append quote text
      refine ⟨(literalBody quote text).2, ?_, ?_⟩
      · rw [List.append_assoc, List.cons_append, parts]
      · rcases literalBody_inversion quote text with ⟨encloses, stops⟩ | ⟨inner, encloses, unquoted⟩
        · cases tail : (literalBody quote text).2 with
          | nil => exact .textEnd encoded encloses
          | cons g rest =>
              rw [tail] at stops never
              rcases stops g rfl with rfl | rfl
              · exact absurd rfl never
              · exact .lineEnd encoded encloses
        · rw [unquoted]
          exact .escapedEnd encoded encloses

/-- A literal that stops in front of something other than its quote is never closed. -/
theorem Open.of_literalBody {quote : Quote} {encoding inner tail : Text}
    (encoded : encoding = [] ∨ encoding ∈ quote.encodings)
    (unquoted : literalBody quote (inner ++ tail) = (inner, tail))
    (other : tail.head? ≠ some quote.mark) :
    Open (.literal quote) (encoding ++ quote.mark :: inner ++ tail) (encoding ++ quote.mark :: inner) := by
  have opened : Open (.literal quote) (encoding ++ quote.mark :: (inner ++ tail))
      (encoding ++ quote.mark :: (literalBody quote (inner ++ tail)).1) :=
    .literal encoded (by rwa [unquoted])
  rwa [unquoted, ← List.cons_append, ← List.append_assoc] at opened

/-- A form is never closed if it begins a text, no word there is the whole form, and it reaches as far
as a form that is never closed. -/
theorem open_iff {form : Enclosure} {body tail : Text} :
    Open form (body ++ tail) body ↔ form.Begins (body ++ tail) ∧
      (∀ word, word <+: body ++ tail → ¬ form.IsWhole word) ∧ form.Reaches body tail := by
  constructor
  · intro opened
    obtain ⟨rest, same, reaches⟩ := opened.reaches
    cases List.append_cancel_left same
    exact ⟨opened.begins, fun word begins => opened.never begins, reaches⟩
  · rintro ⟨begins, never, reaches⟩
    cases reaches with
    | blockComment =>
        rw [List.append_nil] at begins never ⊢
        obtain ⟨rest, rfl⟩ := begins
        refine .blockComment ?_
        cases closed : blockComment rest with
        | none => exact closed
        | some parts =>
            have parted := blockComment_append closed
            refine absurd ⟨parts.1, rfl, blockComment_isClosed closed⟩
              (never (Text.ofString "/*" ++ parts.1) ⟨parts.2, ?_⟩)
            rw [List.append_assoc, parted]
    | lineEnd encoded encloses =>
        refine .of_literalBody encoded ?_ ?_
        · rw [literalBody_append_enclosed encloses, literalBody_stop (.inr rfl), List.append_nil]
        · rename_i quote _ _ _
          cases quote <;> simp [Quote.mark]
    | textEnd encoded encloses =>
        refine .of_literalBody encoded ?_ (by simp)
        rw [literalBody_append_enclosed encloses]
        simp [literalBody]
    | escapedEnd encoded encloses =>
        rename_i quote _ _
        refine .of_literalBody encoded ?_ (by simp)
        rw [List.append_nil, literalBody_append_enclosed encloses]
        simp [literalBody, quote.mark_ne_slash.symm]

end Head

namespace Lexeme

theorem gaps_open {form : Enclosure} {t body : Text} (opened : Head.Open form t body) :
    ∀ g ∈ t.head?, isGap g = false := by
  cases opened with
  | blockComment => simp [isGap]
  | @literal quote encoding text encoded never =>
      have starts : ∀ encoding, encoding = [] ∨ encoding ∈ quote.encodings →
          ∀ g ∈ (encoding ++ [quote.mark]).head?, isGap g = false := by
        cases quote <;> simp [Quote.encodings] <;> decide
      intro g first
      refine starts encoding encoded g ?_
      cases encoding with
      | nil => exact first
      | cons other encoding => exact first

/-- Cutting fails exactly at the first form that is never closed. -/
theorem ofText_eq_error_iff {text : Text} {u : Unclosed} :
    ofText text = .error u ↔ ∃ lexemes blanks tail, u.FirstIn text lexemes blanks tail := by
  constructor
  · intro failed
    fun_induction ofText text generalizing u with
    | case1 => cases failed
    | case2 text blanks form body =>
        rename_i found
        cases failed
        have opened := Head.open_of_read found
        obtain ⟨tail, behind, _⟩ := opened.reaches
        rw [behind] at opened
        obtain ⟨begins, never, reaches⟩ := Head.open_iff.1 opened
        refine ⟨[], blanks, tail, rfl, ?_, .nil, ?_, begins, never, reaches⟩
        · rw [← behind]
          exact List.takeWhile_append_dropWhile.symm
        · exact fun g member => List.all_eq_true.1 List.all_takeWhile g member
    | case3 => cases failed
    | case4 text blanks kind word rest found fault readLater =>
        rename_i ih
        cases failed
        obtain ⟨lexemes, gaps, tail, first⟩ := ih readLater
        obtain ⟨whole, chain⟩ := chain_of_read found
        have behind : rest = flatten lexemes ++ (gaps ++ (fault.body ++ tail)) := by
          rw [← List.append_assoc, ← first.before, ← first.whole]
        refine ⟨⟨blanks, kind, word⟩ :: lexemes, gaps, tail, ?_, ?_, chain behind first.read,
          first.blank, first.begins, first.never, first.reaches⟩
        · rw [flatten_cons, first.before]
          simp only [List.append_assoc]
        · rw [whole, first.whole]
          simp only [List.append_assoc, blanks]
  · rintro ⟨lexemes, blanks, tail, first⟩
    have opened := Head.open_iff.2 ⟨first.begins, first.never, first.reaches⟩
    obtain ⟨front, back⟩ := gaps_split first.blank (gaps_open opened)
    have failed := ofText_open (back.symm ▸ Head.read_iff_open.2 opened)
    rw [front] at failed
    rw [first.whole, first.before, List.append_assoc, ofText_chain_append first.read, failed]
    simp only [← first.before]

end Lexeme

namespace Token

/-- A token in front of `rest` is a literal, or a comment, exactly if it is spelled as one. -/
structure Grammatical (t : Token) (rest : Text) : Prop where
  literal : ∀ quote : Quote, t.kind = quote.kind ↔ quote.IsLiteral t.lexeme
  comment : t.kind = .comment ↔ Text.IsComment t.lexeme rest

theorem grammatical_of_form {t : Token} {rest : Text} (form : Head.Form t.kind t.lexeme rest) :
    Grammatical t rest := by
  have sameKind : ∀ {kind : TokenKind}, Head.Form kind t.lexeme rest → t.kind = kind := by
    intro kind other
    have read := Head.read_of_form form
    rw [Head.read_of_form other] at read
    exact (Head.lexeme.inj read).1.symm
  constructor
  · intro quote
    rw [← @Head.form_literal_iff quote t.lexeme rest]
    exact ⟨fun same => same ▸ form, sameKind⟩
  · rw [← Head.form_comment_iff]
    exact ⟨fun same => same ▸ form, sameKind⟩

theorem grammatical_end {t : Token} (kind : t.kind = .eof) (empty : t.lexeme = []) (rest : Text) :
    Grammatical t rest := by
  constructor
  · intro quote
    rw [kind, empty, ← @Head.form_literal_iff quote [] rest]
    refine ⟨fun same => ?_, fun form => absurd rfl (Lexeme.form_text_ne_nil form)⟩
    cases quote <;> cases same
  · rw [kind, empty, ← Head.form_comment_iff]
    exact ⟨(nomatch ·), fun form => absurd rfl (Lexeme.form_text_ne_nil form)⟩

theorem grammatical_of_tokenize {file text : Text} {tokens : List Token} {t : Token}
    (read : tokenize file text = .ok tokens) (member : t ∈ tokens) :
    Grammatical t (text.drop t.span.stop.offset) := by
  rcases tokenize_form read member with ⟨kind, empty⟩ | form
  · exact grammatical_end kind empty _
  · exact grammatical_of_form form

theorem tokenize_eq_error_iff {file text : Text} {fault : LexFault} :
    tokenize file text = .error fault ↔ ∃ u, Lexeme.ofText text = .error u ∧ fault =
      ⟨⟨file, Position.first.after u.before, Position.first.after (u.before ++ u.body)⟩, u.form⟩ := by
  unfold tokenize
  cases Lexeme.ofText text with
  | ok lexemes => simp
  | error u => simp [eq_comm]

/-- The tokens of a text are grammatical. A text has none exactly if there is a form in it that is never
closed, and then the fault reaches from the beginning of the first one to its end. -/
theorem tokenize_grammar (file text : Text) :
    (∀ tokens, tokenize file text = .ok tokens →
      ∀ t ∈ tokens, Grammatical t (text.drop t.span.stop.offset)) ∧
    ∀ fault, tokenize file text = .error fault ↔
      ∃ u lexemes blanks tail, Unclosed.FirstIn u text lexemes blanks tail ∧ fault =
        ⟨⟨file, Position.first.after u.before, Position.first.after (u.before ++ u.body)⟩,
          u.form⟩ := by
  refine ⟨fun tokens read t member => grammatical_of_tokenize read member, fun fault => ?_⟩
  rw [tokenize_eq_error_iff]
  refine exists_congr fun u => ?_
  rw [Lexeme.ofText_eq_error_iff]
  simp only [exists_and_right]

end Token

end FormatLint
