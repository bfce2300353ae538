import FormatLint.Proofs.Cast.Canonical
import FormatLint.Proofs.Token.Collapse
import FormatLint.Proofs.Token.Insertion

/-!
The types of casts in their source text. `Cast.Encloses` says what stands between the parentheses of a
cast, with spaces for the glyphs of comments. `Spelling.normalize_canonical` says that normal spellings
are canonical and that the family of a cast is that of the known type which has the names and the number
of asterisks of that text, however they are spaced, qualified and put in order.
-/

namespace FormatLint

namespace Lexeme

/-- The text that lexemes were cut from, with a space for each glyph of a comment. -/
def uncommented (lexemes : List Lexeme) : Text :=
  lexemes.flatMap fun l =>
    l.blanks ++ if l.kind = .comment then Text.fill l.text.length ' ' else l.text

theorem uncommented_cons (l : Lexeme) (later : List Lexeme) : uncommented (l :: later) =
    l.blanks ++ ((if l.kind = .comment then Text.fill l.text.length ' ' else l.text) ++
      uncommented later) := by
  simp [uncommented]

theorem uncommented_append (before after : List Lexeme) :
    uncommented (before ++ after) = uncommented before ++ uncommented after := by
  simp [uncommented]

theorem uncommented_length (lexemes : List Lexeme) :
    (uncommented lexemes).length = (flatten lexemes).length := by
  induction lexemes with
  | nil => rfl
  | cons l later ih =>
      have here : (if l.kind = .comment then Text.fill l.text.length ' ' else l.text).length =
          l.text.length := by
        split <;> simp [Text.fill]
      rw [uncommented_cons, flatten_cons]
      simp only [List.length_append, here, ih]
      omega

theorem extract_uncommented {before within after : List Lexeme} {first last : Lexeme}
    (opens : first.kind ≠ .comment) (closes : last.kind ≠ .comment) {start stop : Nat}
    (begins : start = (flatten before ++ first.blanks).length + first.text.length)
    (ends : stop = start + (flatten within ++ last.blanks).length) :
    (uncommented (before ++ first :: (within ++ last :: after))).extract start stop =
      uncommented within ++ last.blanks := by
  have whole : uncommented (before ++ first :: (within ++ last :: after)) =
      (uncommented before ++ (first.blanks ++ first.text)) ++
        ((uncommented within ++ last.blanks) ++ (last.text ++ uncommented after)) := by
    simp only [uncommented_append, uncommented_cons, if_neg opens, if_neg closes, List.append_assoc]
  have front : start = (uncommented before ++ (first.blanks ++ first.text)).length := by
    simp only [begins, List.length_append, uncommented_length]
    omega
  have inner : stop - start = (uncommented within ++ last.blanks).length := by
    simp only [ends, List.length_append, uncommented_length]
    omega
  rw [whole, List.extract_eq_take_drop, front, List.drop_left, ← front, inner, List.take_left]

theorem exists_chain {text : Text} {before after : List Lexeme} {l : Lexeme}
    (read : ofText text = .ok (before ++ l :: after)) (inner : l.kind ≠ .eof) :
    ∃ rest, Chain (before ++ [l]) rest := by
  obtain ⟨chain, blanks, whole, _, chained, _⟩ := ofText_eq_ok_iff.1 read
  rcases List.eq_nil_or_concat' after with rfl | ⟨later, last, rfl⟩
  · obtain ⟨_, same⟩ := List.append_inj' whole rfl
    rw [List.singleton_inj.1 same] at inner
    exact absurd rfl inner
  · rw [List.append_cons, ← List.append_assoc] at whole
    rw [← (List.append_inj' whole rfl).1] at chained
    exact ⟨_, (chain_append.1 chained).1⟩

/-- The lexeme is a comment or can stand in a type. -/
def InType (l : Lexeme) : Prop :=
  l.kind = .comment ∨ l.kind = .ident ∨ l.kind = .punct ∧ l.text = Spelling.star

open Spelling (Spells separates separates_of_isBlank)

theorem separates_of_isGap {g : Glyph} (gap : isGap g = true) : separates g = true :=
  separates_of_isBlank (isBlank_of_isGap gap)

variable {lexemes : List Lexeme} {rest blanks : Text}

/-- What ends a name in the text that lexemes were cut from ends it without the comments, too. -/
theorem Chain.separates_head (chain : Chain lexemes rest) (inType : ∀ l ∈ lexemes, l.InType)
    (blank : ∀ g ∈ blanks, isGap g = true)
    (ends : ∀ g ∈ (flatten lexemes ++ rest).head?, Head.isWordPart g = false) :
    ∀ g ∈ (uncommented lexemes ++ blanks).head?, separates g = true := by
  cases chain with
  | nil => exact fun g first => separates_of_isGap (blank g (List.mem_of_mem_head? first))
  | @cons l later _ gaps _ form _ =>
      rw [uncommented_cons]
      rw [flatten_cons] at ends
      cases lead : l.blanks with
      | cons b more =>
          rintro g ⟨⟩
          exact separates_of_isGap (gaps _ (by simp [lead]))
      | nil =>
          obtain ⟨first, word, spelled⟩ := List.exists_cons_of_ne_nil (form_text_ne_nil form)
          rcases inType l List.mem_cons_self with comment | named | ⟨punct, asterisk⟩
          · rw [if_pos comment, spelled]
            rintro g ⟨⟩
            decide
          · rw [named] at form
            obtain ⟨g, more, shape, start, _, _⟩ := form.ident_cases
            have part := ends g (by simp [lead, shape])
            rw [Head.isWordPart_of_isWordStart start] at part
            cases part
          · rw [if_neg (by simp [punct]), asterisk]
            rintro g ⟨⟩
            decide

theorem spells_gaps {t : Text} {words : List Text} (blank : ∀ g ∈ blanks, isGap g = true)
    (spells : Spells t words) : Spells (blanks ++ t) words := by
  induction blanks with
  | nil => exact spells
  | cons g blanks ih =>
      obtain ⟨here, behind⟩ := List.forall_mem_cons.1 blank
      exact .blank (isBlank_of_isGap here) (ih behind)

/-- Without its comments, a type spells its words. -/
theorem Chain.spells (chain : Chain lexemes rest) (inType : ∀ l ∈ lexemes, l.InType)
    (blank : ∀ g ∈ blanks, isGap g = true) :
    Spells (uncommented lexemes ++ blanks)
      ((lexemes.filter (·.kind ≠ .comment)).map (·.text)) := by
  induction chain with
  | nil =>
      have alone := spells_gaps blank .nil
      rwa [List.append_nil] at alone
  | @cons l later rest gaps _ form next ih =>
      obtain ⟨here, behind⟩ := List.forall_mem_cons.1 inType
      rw [uncommented_cons, List.append_assoc, List.append_assoc]
      refine spells_gaps gaps ?_
      rcases here with comment | named | ⟨punct, asterisk⟩
      · rw [if_pos comment, List.filter_cons_of_neg (by simp [comment])]
        refine spells_gaps (fun g member => ?_) (ih behind)
        rw [List.eq_of_mem_replicate member]
        decide
      · rw [if_neg (by simp [named]), List.filter_cons_of_pos (by simp [named])]
        rw [named] at form
        obtain ⟨_, _, _, _, _, ends⟩ := form.ident_cases
        refine .name (form_text_ne_nil form) (fun g member => ?_)
          (next.separates_head behind blank ends) (ih behind)
        exact Spelling.separates_eq_false_iff.2 (Spelling.solid_of_ident form g member)
      · rw [if_neg (by simp [punct]), List.filter_cons_of_pos (by simp [punct]), asterisk,
          List.map_cons, asterisk]
        exact .asterisk (ih behind)

end Lexeme

namespace Token

theorem exists_of_code {tokens middle behind : List Token} {first last : Token}
    (whole : code tokens = first :: (middle ++ last :: behind)) :
    ∃ lead between trail, tokens = lead ++ first :: (between ++ last :: trail) ∧
      code between = middle := by
  obtain ⟨lead, rest, rfl, _, _, later⟩ := List.filter_eq_cons_iff.1 whole
  obtain ⟨between, more, rfl, rfl, final⟩ := List.filter_eq_append_iff.1 later
  obtain ⟨gap, trail, rfl, comments, _, _⟩ := List.filter_eq_cons_iff.1 final
  refine ⟨lead, between ++ gap, trail, by simp, ?_⟩
  rw [code_append, code, code, List.filter_eq_nil_iff.2 comments, List.append_nil]

theorem exists_lexeme {file : Text} {p : Position} {lexemes : List Lexeme} {front back : List Token}
    {t : Token} (placed : place file p lexemes = front ++ t :: back) :
    ∃ before l after, lexemes = before ++ l :: after ∧ front = place file p before ∧
      l.kind = t.kind ∧ l.text = t.lexeme ∧
      t.span.start.offset = p.offset + (Lexeme.flatten before ++ l.blanks).length ∧
      t.span.stop.offset = t.span.start.offset + t.lexeme.length ∧
      back = place file t.span.stop after := by
  obtain ⟨before, rest, rfl, ahead, found⟩ := place_split placed
  cases rest with
  | nil => cases found
  | cons l after =>
      rw [place, List.cons.injEq] at found
      obtain ⟨rfl, rfl⟩ := found
      refine ⟨before, l, after, rfl, ahead, rfl, rfl, ?_, Position.after_offset _ _, rfl⟩
      rw [Position.after_offset, Position.after_offset, List.length_append, Nat.add_assoc]

theorem exists_token (file : Text) (p : Position) {lexemes : List Lexeme} {l : Lexeme}
    (member : l ∈ lexemes) : ∃ t ∈ place file p lexemes, t.kind = l.kind ∧ t.lexeme = l.text := by
  have listed := List.mem_map_of_mem (f := fun l => (l.kind, l.text)) member
  rw [← place_lexemes file p] at listed
  obtain ⟨t, inside, same⟩ := List.mem_map.1 listed
  exact ⟨t, inside, congrArg Prod.fst same, congrArg Prod.snd same⟩

theorem code_lexemes (file : Text) (p : Position) (lexemes : List Lexeme) :
    (code (place file p lexemes)).map (·.lexeme) =
      (lexemes.filter (·.kind ≠ .comment)).map (·.text) := by
  induction lexemes generalizing p with
  | nil => rfl
  | cons l later ih =>
      rw [place, code, List.filter_cons, List.filter_cons]
      by_cases comment : l.kind = .comment <;> simpa [code, isComment, comment] using ih _

end Token

namespace Cast

/-- The cast is one of an argument in some text, and this is what stands between its parentheses, with
a space for each glyph of a comment. -/
def Encloses (c : Cast) (inner : Text) : Prop :=
  ∃ (file text : Text) (lexemes : List Lexeme) (a : Argument),
    Lexeme.ofText text = .ok lexemes ∧ a.tokens <:+: Token.place file .first lexemes ∧
      a.cast? = some c ∧ inner = (Lexeme.uncommented lexemes).extract (c.span.start.offset + 1)
        (c.span.stop.offset - 1)

/-- Between two parentheses of a text stands a chain, and a gap behind it. -/
theorem exists_inner {file text : Text} {lexemes : List Lexeme} {front between back : List Token}
    {opening closing : Token} (cut : Lexeme.ofText text = .ok lexemes)
    (placed : Token.place file .first lexemes = front ++ opening :: (between ++ closing :: back))
    (opens : opening.kind = .openParen) (closes : closing.kind = .closeParen) :
    ∃ within blanks rest, between = Token.place file opening.span.stop within ∧
      Lexeme.Chain within rest ∧ (∀ g ∈ blanks, Lexeme.isGap g = true) ∧
      (Lexeme.uncommented lexemes).extract (opening.span.start.offset + 1)
        (closing.span.stop.offset - 1) = Lexeme.uncommented within ++ blanks := by
  obtain ⟨before, first, rest, rfl, _, kind, spelled, start, stop, behind⟩ :=
    Token.exists_lexeme placed
  obtain ⟨within, last, after, rfl, rfl, kind', spelled', start', stop', _⟩ :=
    Token.exists_lexeme behind.symm
  rw [opens] at kind
  rw [closes] at kind'
  rw [← spelled] at stop
  rw [← spelled'] at stop'
  have regroup : before ++ first :: (within ++ last :: after) =
      (before ++ first :: within) ++ last :: after := by simp
  rw [regroup] at cut
  obtain ⟨tail, chain⟩ := Lexeme.exists_chain cut (by simp [kind'])
  rw [List.append_assoc, List.cons_append] at chain
  cases (Lexeme.chain_append.1 chain).2 with
  | cons _ _ form next =>
      obtain ⟨inner, final⟩ := Lexeme.chain_append.1 next
      cases final with
      | cons blank _ form' _ =>
          have round := congrArg List.length (form.delimiter.1 kind)
          have round' := congrArg List.length (form'.delimiter.2.1 kind')
          have one : (Text.ofString "(").length = 1 ∧ (Text.ofString ")").length = 1 := by decide
          have zero : Position.first.offset = 0 := rfl
          refine ⟨within, last.blanks, _, rfl, inner, blank, ?_⟩
          refine Lexeme.extract_uncommented (by simp [kind]) (by simp [kind']) ?_ ?_ <;> omega

/-- Lexemes whose code can stand in a type can do so themselves. -/
theorem inType_of_code {file : Text} {p : Position} {lexemes : List Lexeme}
    (words : ∀ t ∈ Token.code (Token.place file p lexemes), isTypeWord t = true) :
    ∀ l ∈ lexemes, l.InType := by
  intro l member
  by_cases comment : l.kind = .comment
  · exact .inl comment
  · obtain ⟨t, listed, kind, lexeme⟩ := Token.exists_token file p member
    have code : t ∈ Token.code (Token.place file p lexemes) :=
      List.mem_filter.2 ⟨listed, by simpa [Token.isComment, kind] using comment⟩
    have word := isTypeWord_iff.1 (words t code)
    rw [isPunct_iff, List.mem_singleton, kind, lexeme] at word
    exact .inr word

/-- The spelling of a cast is the normal one of what stands between its parentheses. -/
theorem Encloses.spelling {c : Cast} {inner : Text} (encloses : c.Encloses inner) :
    c.spelling = Spelling.normalize inner ∧ c.family = Spelling.family? c.spelling := by
  obtain ⟨file, text, lexemes, a, cut, ⟨front, back, whole⟩, found, rfl⟩ := encloses
  obtain ⟨opening, type, closing, operand, code, checked, rfl⟩ := Argument.cast?_inversion.1 found
  obtain ⟨lead, between, trail, tokens, rfl⟩ := Token.exists_of_code code
  refine ⟨?_, rfl⟩
  have placed : Token.place file .first lexemes =
      (front ++ lead) ++ opening :: (between ++ closing :: (trail ++ back)) := by
    rw [← whole, tokens]
    simp
  obtain ⟨within, blanks, rest, rfl, chain, blank, slice⟩ :=
    exists_inner cut placed checked.opens checked.closes
  have spells := chain.spells (inType_of_code checked.words) blank
  rw [Spelling.normalize, Span.through, slice, spells.words_eq, Token.code_lexemes]

/-- A cast of an argument that is the whole text. -/
theorem encloses_of_chain {lexemes : List Lexeme} {a : Argument} {c : Cast}
    (chain : Lexeme.Chain lexemes []) (tokens : a.tokens = Token.place [] .first lexemes)
    (found : a.cast? = some c) :
    c.Encloses ((Lexeme.uncommented (lexemes ++ [⟨[], .eof, []⟩])).extract (c.span.start.offset + 1)
      (c.span.stop.offset - 1)) := by
  refine ⟨[], Lexeme.flatten lexemes, _, a, Lexeme.ofText_words chain, ?_, found, rfl⟩
  rw [Token.place_append, tokens]
  exact (List.prefix_append _ _).isInfix

end Cast

namespace Spelling

/-- Normal spellings are canonical: two spellings have one exactly if they have the same words, asterisks
and qualifiers apart, and as many asterisks. It has the names and the asterisks of what it was made of,
and is its own normal spelling. The family of a cast is that of the known type with the names and as many
asterisks as what stands between its parentheses, so that all casts that agree in these have one family. -/
theorem normalize_canonical :
    (∀ s t, normalize s = normalize t ↔ (words s).filter isRelevant = (words t).filter isRelevant ∧
      (words s).count star = (words t).count star) ∧
    (∀ t, (words t).filter isRelevant = names t ∧ (words t).count star = stars t ∧
      names (normalize t) = names t ∧ stars (normalize t) = stars t ∧
      normalize (normalize t) = normalize t) ∧
    ∀ {c : Cast} {inner : Text}, c.Encloses inner → c.spelling = normalize inner ∧
      (∀ family, c.family = some family ↔
        ∃ known, (known, family) ∈ vocabulary ∧ names known = names inner ∧ stars known = stars inner) ∧
      ∀ {c' : Cast} {inner' : Text}, c'.Encloses inner' → names inner' = names inner →
        stars inner' = stars inner → c'.family = c.family := by
  refine ⟨fun s t => ?_, fun t => ?_, fun {c inner} encloses => ?_⟩
  · rw [filter_words, filter_words, count_words, count_words]
    exact normalize_eq_iff
  · exact ⟨filter_words t, count_words t, names_normalize t, stars_normalize t, normalize_normalize t⟩
  · obtain ⟨spelling, family⟩ := encloses.spelling
    refine ⟨spelling, fun f => ?_, fun {c' inner'} encloses' sameNames sameStars => ?_⟩
    · rw [family, spelling]
      exact family?_normalize_iff
    · obtain ⟨spelling', family'⟩ := encloses'.spelling
      have same : normalize inner' = normalize inner := normalize_eq_iff.2 ⟨sameNames, sameStars⟩
      rw [family, family', spelling, spelling', same]

/-- A cast with a qualifier in front and a comment before the asterisk. -/
def qualifiedCast : List Lexeme :=
  [⟨[], .openParen, "("⟩, ⟨[], .ident, "const"⟩, ⟨" ", .ident, "unsigned"⟩, ⟨" ", .ident, "char"⟩,
   ⟨[], .comment, "/* c */"⟩, ⟨[], .punct, "*"⟩, ⟨[], .closeParen, ")"⟩, ⟨" ", .ident, "p"⟩]

theorem chain_qualifiedCast : Lexeme.Chain qualifiedCast [] := by
  repeat' first
    | exact .nil
    | refine .cons (by decide) (by decide) (Head.read_iff_form.1 rfl) ?_

/-- A cast with the asterisk in the middle, over two lines. -/
def splitCast : List Lexeme :=
  [⟨[], .openParen, "("⟩, ⟨[], .ident, "unsigned"⟩, ⟨[], .punct, "*"⟩, ⟨"\n  ", .ident, "char"⟩,
   ⟨" ", .closeParen, ")"⟩, ⟨[], .ident, "q"⟩]

theorem chain_splitCast : Lexeme.Chain splitCast [] := by
  repeat' first
    | exact .nil
    | refine .cons (by decide) (by decide) (Head.read_iff_form.1 rfl) ?_

theorem normalize_canonical_twoCasts :
    ∃ c c' : Cast, c.Encloses "const unsigned char       *" ∧ c'.Encloses "unsigned*\n  char " ∧
      names "unsigned*\n  char " = names "const unsigned char       *" ∧
      stars "unsigned*\n  char " = stars "const unsigned char       *" ∧
      c.spelling = "unsigned char*" ∧ c.family = some .string ∧ c'.family = c.family := by
  let a : Argument := ⟨Token.place [] .first qualifiedCast, by decide⟩
  let a' : Argument := ⟨Token.place [] .first splitCast, by decide⟩
  have found : a.cast? = some ⟨"unsigned char*", some .string, ⟨[], ⟨0, 1, 1⟩, ⟨29, 1, 30⟩⟩⟩ := by
    cbv
  have found' : a'.cast? = some ⟨"unsigned char*", some .string, ⟨[], ⟨0, 1, 1⟩, ⟨19, 2, 9⟩⟩⟩ := by
    cbv
  have encloses := Cast.encloses_of_chain chain_qualifiedCast rfl found
  have encloses' := Cast.encloses_of_chain chain_splitCast rfl found'
  have sameNames : names "unsigned*\n  char " = names "const unsigned char       *" := by decide +kernel
  have sameStars : stars "unsigned*\n  char " = stars "const unsigned char       *" := by decide +kernel
  refine ⟨_, _, encloses, encloses', sameNames, sameStars, rfl, rfl, ?_⟩
  exact (normalize_canonical.2.2 encloses).2.2 encloses' sameNames sameStars

end Spelling

end FormatLint
