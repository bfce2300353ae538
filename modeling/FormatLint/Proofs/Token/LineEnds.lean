import FormatLint.Proofs.Analysis.Relocation
import FormatLint.Proofs.Token.Open

/-!
Lines that end with a carriage return and a line feed. `Lexeme.ofText_crlf` says that a text is cut
into the same code if every line feed in it gets a carriage return, unless a literal or a line comment
goes on behind the end of a line: there a backslash takes only one glyph along.
-/

namespace FormatLint

/-- Every line feed gets a carriage return in front of it. -/
def Text.crlf (t : Text) : Text :=
  t.flatMap fun g => if g = .char '\n' then [.char '\r', .char '\n'] else [g]

/-- Of all lexemes only block comments reach over the end of a line. -/
def Text.Unbroken (t : Text) : Prop :=
  ∀ lexemes rest, t = Lexeme.flatten lexemes ++ rest → Lexeme.Chain lexemes rest →
    ∀ l ∈ lexemes, .char '\n' ∈ l.text → l.kind = .comment ∧ Text.ofString "/*" <+: l.text

/-- A place of a text if every line feed in it gets a carriage return. -/
def Relocation.crlf : Relocation where
  file := id
  place p := ⟨p.offset + (p.line - 1), p.line, p.column⟩

namespace Text

@[simp] theorem crlf_nil : crlf [] = [] := rfl

@[simp] theorem crlf_feed (t : Text) :
    crlf (.char '\n' :: t) = .char '\r' :: .char '\n' :: crlf t := rfl

theorem crlf_cons {g : Glyph} (inside : g ≠ .char '\n') (t : Text) :
    crlf (g :: t) = g :: crlf t := by
  simp [crlf, inside]

@[simp] theorem crlf_append (before after : Text) :
    crlf (before ++ after) = crlf before ++ crlf after := List.flatMap_append

theorem crlf_eq_self {t : Text} (inside : .char '\n' ∉ t) : crlf t = t := by
  induction t with
  | nil => rfl
  | cons g rest ih =>
      rw [List.mem_cons, not_or] at inside
      rw [crlf_cons (Ne.symm inside.1), ih inside.2]

theorem crlf_head? {t : Text} {g : Glyph} (inside : g ≠ .char '\n') (other : g ≠ .char '\r') :
    (crlf t).head? = some g ↔ t.head? = some g := by
  cases t with
  | nil => simp
  | cons first rest =>
      by_cases feed : first = .char '\n'
      · subst feed
        simp [Ne.symm inside, Ne.symm other]
      · rw [crlf_cons feed]
        rfl

theorem crlf_gaps (t : Text) :
    (crlf t).takeWhile Lexeme.isGap = crlf (t.takeWhile Lexeme.isGap) ∧
      (crlf t).dropWhile Lexeme.isGap = crlf (t.dropWhile Lexeme.isGap) := by
  have blank : Lexeme.isGap (.char '\r') = true ∧ Lexeme.isGap (.char '\n') = true := by decide
  induction t with
  | nil => exact ⟨rfl, rfl⟩
  | cons g rest ih =>
      by_cases feed : g = .char '\n'
      · subst feed
        simp [blank, ih]
      · rw [crlf_cons feed, List.takeWhile_cons, List.dropWhile_cons, List.takeWhile_cons,
          List.dropWhile_cons]
        split
        · rw [crlf_cons feed, ih.1, ih.2]
          exact ⟨rfl, rfl⟩
        · rw [crlf_cons feed]
          exact ⟨rfl, rfl⟩

end Text

namespace Position

/-- Behind a text with carriage returns is the place that the relocation gives. -/
theorem after_crlf {p : Position} (first : 1 ≤ p.line) (t : Text) :
    (Relocation.crlf.place p).after (Text.crlf t) = Relocation.crlf.place (p.after t) := by
  induction t generalizing p with
  | nil => rfl
  | cons g rest ih =>
      have next := ih (first.trans (p.line_le_step g))
      rw [after_cons, ← next]
      by_cases feed : g = .char '\n'
      · subst feed
        have same : ((Relocation.crlf.place p).step (.char '\r')).step (.char '\n') =
            Relocation.crlf.place (p.step (.char '\n')) := by
          simp [step, Relocation.crlf]
          omega
        rw [Text.crlf_feed, after_cons, after_cons, same]
      · have same : (Relocation.crlf.place p).step g = Relocation.crlf.place (p.step g) := by
          simp only [step, Relocation.crlf, feed, if_false, Position.mk.injEq, and_true]
          omega
        rw [Text.crlf_cons feed, after_cons, same]

end Position

namespace Head

open Text (crlf)

theorem blockComment_crlf (t : Text) :
    blockComment (crlf t) =
      (blockComment t).map fun parts => (crlf parts.1, crlf parts.2) := by
  induction t with
  | nil => rfl
  | cons g rest ih =>
      by_cases closes : g = .char '*' ∧ rest.head? = some (.char '/')
      · obtain ⟨rfl, slash⟩ := closes
        cases rest with
        | nil => cases slash
        | cons next rest =>
            cases Option.some.inj slash
            rfl
      · by_cases feed : g = .char '\n'
        · subst feed
          have first : blockComment (.char '\r' :: .char '\n' :: crlf rest) =
              (blockComment (crlf rest)).map fun parts =>
                (.char '\r' :: .char '\n' :: parts.1, parts.2) := by
            rw [blockComment_cons (by simp), blockComment_cons (by simp), Option.map_map]
            rfl
          rw [Text.crlf_feed, first, ih, blockComment_cons (by simp), Option.map_map, Option.map_map]
          rfl
        · have stays : ¬ (g = .char '*' ∧ (crlf rest).head? = some (.char '/')) := by
            rw [Text.crlf_head? (by decide) (by decide)]
            exact closes
          rw [Text.crlf_cons feed, blockComment_cons stays, ih, blockComment_cons closes,
            Option.map_map, Option.map_map]
          refine congrArg (Option.map · _) (funext fun parts => ?_)
          simp only [Function.comp_apply, Text.crlf_cons feed]

/-- A line comment without a line feed ends at the first one, unless there is a backslash in front of
that. -/
theorem lineComment_of_noFeed {body : Text} (inside : .char '\n' ∉ body)
    (ends : body.getLast? ≠ some (.char '\\')) (rest : Text) :
    lineComment (body ++ .char '\n' :: rest) = (body, .char '\n' :: rest) := by
  refine lineComment_eq_iff.2 ⟨fun front back whole => ?_, .inr ⟨rfl, ends⟩⟩
  exact absurd (by simp [whole]) inside

theorem succession_crlf {kind : TokenKind} (code : kind ≠ .comment) (rest : Text) :
    Succession kind rest (crlf rest) := by
  cases rest with
  | nil => exact .finished
  | cons g rest =>
      by_cases feed : g = .char '\n'
      · subst feed
        exact .boundary code (by decide)
      · rw [Text.crlf_cons feed]
        exact .same fun _ => (Text.crlf_head? (by decide) (by decide)).1

/-- The first lexeme of a text with carriage returns. One of them becomes part of a line comment that
ends in front of it. -/
theorem read_crlf {kind : TokenKind} {word rest : Text} (form : Form kind word rest)
    (unbroken : .char '\n' ∈ word → kind = .comment ∧ Text.ofString "/*" <+: word) :
    read (crlf (word ++ rest)) = .lexeme kind (crlf word) (crlf rest) ∨
      kind = .comment ∧ ∃ rest', crlf rest = .char '\r' :: rest' ∧
        read (crlf (word ++ rest)) = .lexeme kind (crlf word ++ [.char '\r']) rest' := by
  by_cases comment : kind = .comment
  · cases form with
    | @lineComment body rest ends =>
        have inside : .char '\n' ∉ body := by
          intro feed
          have begins := (unbroken (List.mem_cons_of_mem _ (List.mem_cons_of_mem _ feed))).2
          obtain ⟨_, second⟩ := List.cons_prefix_cons.1 begins
          exact absurd (List.cons_prefix_cons.1 second).1 (by decide)
        rcases lineComment_rest ends with rfl | ⟨later, rfl⟩
        · left
          rw [List.append_nil] at ends
          simp [Text.crlf_cons, Text.crlf_eq_self inside, read, ends]
        · refine .inr ⟨rfl, .char '\n' :: crlf later, Text.crlf_feed later, ?_⟩
          have reads : lineComment (body ++ [.char '\r'] ++ .char '\n' :: crlf later) =
              (body ++ [.char '\r'], .char '\n' :: crlf later) :=
            lineComment_of_noFeed (by simp [inside]) (by simp) (crlf later)
          rw [List.append_assoc] at reads
          simp only [List.singleton_append] at reads
          simp [Text.crlf_cons, Text.crlf_eq_self inside, read, reads]
    | @blockComment body rest closed =>
        left
        have whole := blockComment_crlf (body ++ rest)
        rw [closed] at whole
        simp only [List.cons_append, Text.crlf_cons, ne_eq, Glyph.char.injEq, Char.reduceEq,
          not_false_eq_true, read, whole, Option.map_some]
    | @literal quote => cases quote <;> cases comment
    | ident => cases comment
    | number => cases comment
    | symbol _ _ _ _ spelled =>
        rcases spelled with ⟨rfl, _⟩ | ⟨rfl, _⟩
        · cases comment
        · unfold glyphKind at comment
          repeat' split at comment
          all_goals cases comment
  · left
    have inside : .char '\n' ∉ word := fun feed => comment (unbroken feed).1
    rw [Text.crlf_append, Text.crlf_eq_self inside]
    exact read_of_form (form.succeed (succession_crlf comment rest))

/-- A literal that is never closed stays so. A backslash in front of the end of a line then takes the
carriage return along, and the line feed ends the literal. -/
theorem literalBody_crlf {quote : Quote} {t : Text}
    (never : (literalBody quote t).2.head? ≠ some quote.mark) :
    (literalBody quote (crlf t)).2.head? ≠ some quote.mark := by
  have marks : quote.mark ≠ .char '\n' ∧ quote.mark ≠ .char '\r' ∧ quote.mark ≠ .char '\\' := by
    cases quote <;> decide
  obtain ⟨noFeed, noReturn, noSlash⟩ := marks
  have feed (rest : Text) : literalBody quote (.char '\n' :: rest) = ([], .char '\n' :: rest) := by
    cases rest <;> simp [literalBody]
  have lineEnd (rest : Text) :
      (literalBody quote (.char '\r' :: .char '\n' :: rest)).2.head? ≠ some quote.mark := by
    simp [literalBody, noReturn.symm, feed, noFeed.symm]
  induction t using literalBody.induct quote with
  | case1 => simp [literalBody]
  | case2 g ends =>
      rcases ends with rfl | rfl
      · simp [literalBody] at never
      · exact lineEnd []
  | case3 g inside =>
      rw [not_or] at inside
      simp [Text.crlf_cons inside.2, literalBody, inside]
  | case4 g next rest ends =>
      rcases ends with rfl | rfl
      · simp [literalBody] at never
      · exact lineEnd _
  | case5 next rest _ _ _ inside ih =>
      simp only [literalBody, noSlash.symm, if_true, false_or, Glyph.char.injEq, Char.reduceEq,
        if_false] at never
      rw [Text.crlf_cons (by simp)]
      by_cases isFeed : next = .char '\n'
      · subst isFeed
        simp [literalBody, noSlash.symm, feed, noFeed.symm]
      · have later := ih never
        simpa [Text.crlf_cons isFeed, literalBody, noSlash.symm] using later
  | case6 g next rest inside escape _ _ _ ih =>
      have neither := inside
      rw [not_or] at neither
      simp only [literalBody, inside, escape, if_false] at never
      have later := ih never
      rw [Text.crlf_cons neither.2]
      cases whole : crlf (next :: rest) with
      | nil => simp [literalBody, neither]
      | cons first more =>
          rw [whole] at later
          simpa [literalBody, neither, escape] using later

theorem open_crlf {form : Enclosure} {t body : Text} (opened : Open form t body) :
    ∃ body', read (crlf t) = .unclosed form body' := by
  cases opened with
  | @blockComment rest never =>
      have still := blockComment_crlf rest
      rw [never] at still
      exact ⟨_, read_iff_open.2 (.blockComment still)⟩
  | @literal quote encoding text encoded never =>
      have plain : .char '\n' ∉ encoding ∧ quote.mark ≠ .char '\n' := by
        have listed : ∀ name ∈ quote.encodings, Glyph.char '\n' ∉ name := by
          cases quote <;> decide
        refine ⟨?_, by cases quote <;> decide⟩
        rcases encoded with rfl | encodes
        · exact List.not_mem_nil
        · exact listed encoding encodes
      rw [Text.crlf_append, Text.crlf_eq_self plain.1, Text.crlf_cons plain.2]
      exact ⟨_, read_iff_open.2 (.literal encoded (literalBody_crlf never))⟩

end Head

namespace Text

theorem Unbroken.step {t word rest : Text} {kind : TokenKind} (unbroken : t.Unbroken)
    (read : Head.read (t.dropWhile Lexeme.isGap) = .lexeme kind word rest) :
    (.char '\n' ∈ word → kind = .comment ∧ Text.ofString "/*" <+: word) ∧ rest.Unbroken := by
  obtain ⟨whole, chained⟩ := Lexeme.chain_of_read read
  constructor
  · refine unbroken [⟨t.takeWhile Lexeme.isGap, kind, word⟩] rest ?_ ?_ _ List.mem_cons_self
    · rw [Lexeme.flatten_cons, List.append_assoc, List.append_assoc]
      exact whole
    · exact chained rfl .nil
  · intro lexemes after parts chain l member
    refine unbroken (⟨t.takeWhile Lexeme.isGap, kind, word⟩ :: lexemes) after ?_
      (chained parts chain) l (List.mem_cons_of_mem _ member)
    rw [Lexeme.flatten_cons, List.append_assoc, List.append_assoc, ← parts]
    exact whole

end Text

namespace Lexeme

open Text (crlf)

/-- Reading goes on at the same code in a text and in the text with carriage returns, from places on
that agree where the code begins. -/
structure Resumes (p : Position) (t : Text) (p' : Position) (t' : Text) : Prop where
  code : t'.dropWhile isGap = crlf (t.dropWhile isGap)
  start : p'.after (t'.takeWhile isGap) = Relocation.crlf.place (p.after (t.takeWhile isGap))

theorem resumes_crlf {p : Position} (line : 1 ≤ p.line) (t : Text) :
    Resumes p t (Relocation.crlf.place p) (crlf t) :=
  ⟨(Text.crlf_gaps t).2, by rw [(Text.crlf_gaps t).1, Position.after_crlf line]⟩

/-- A carriage return may be taken for a part of what stands in front of it. -/
theorem Resumes.skip {p p' : Position} {t t' : Text} (resumes : Resumes p t p' (.char '\r' :: t')) :
    Resumes p t (p'.step (.char '\r')) t' := by
  have blank : isGap (.char '\r') = true := by decide
  obtain ⟨code, start⟩ := resumes
  rw [List.dropWhile_cons_of_pos blank] at code
  rw [List.takeWhile_cons_of_pos blank, Position.after_cons] at start
  exact ⟨code, start⟩

/-- Behind the first lexeme reading goes on at the same code again. -/
theorem Resumes.step {p p' : Position} {t t' word rest : Text} {kind : TokenKind}
    (resumes : Resumes p t p' t') (line : 1 ≤ p.line)
    (read : Head.read (t.dropWhile isGap) = .lexeme kind word rest)
    (unbroken : .char '\n' ∈ word → kind = .comment ∧ Text.ofString "/*" <+: word) :
    ∃ word' rest', Head.read (t'.dropWhile isGap) = .lexeme kind word' rest' ∧
      Resumes ((p.after (t.takeWhile isGap)).after word) rest
        ((p'.after (t'.takeWhile isGap)).after word') rest' ∧
      (kind ≠ .comment → word' = word ∧ (p'.after (t'.takeWhile isGap)).after word' =
        Relocation.crlf.place ((p.after (t.takeWhile isGap)).after word)) := by
  have under := line.trans (p.line_le_after (t.takeWhile isGap))
  have next := resumes_crlf (under.trans (Position.line_le_after _ word)) rest
  rw [resumes.start, resumes.code, (Head.read_lexeme read).1]
  rcases Head.read_crlf (Head.form_of_read read) unbroken with here | ⟨rfl, rest', returns, here⟩
  · refine ⟨crlf word, crlf rest, here, ?_, fun code => ⟨?_, Position.after_crlf under word⟩⟩
    · rw [Position.after_crlf under]
      exact next
    · exact Text.crlf_eq_self fun feed => code (unbroken feed).1
  · refine ⟨crlf word ++ [.char '\r'], rest', here, ?_, fun code => absurd rfl code⟩
    rw [returns] at next
    rw [Position.after_append, Position.after_crlf under]
    exact next.skip

/-- The text with carriage returns is cut into the same code at the places that the relocation gives,
or the same form is never closed in it. -/
theorem ofText_crlf (file : Text) {t : Text} (unbroken : t.Unbroken) {p p' : Position} {t' : Text}
    (line : 1 ≤ p.line) (resumes : Resumes p t p' t') :
    (∀ lexemes, ofText t = .ok lexemes → ∃ lexemes', ofText t' = .ok lexemes' ∧
      Token.code (Token.place file p' lexemes') =
        (Token.code (Token.place file p lexemes)).map (Token.relocate .crlf)) ∧
    ∀ fault, ofText t = .error fault → ∃ fault', ofText t' = .error fault' ∧
      fault'.form = fault.form ∧
      p'.after fault'.before = Relocation.crlf.place (p.after fault.before) := by
  fun_induction ofText t generalizing p p' t' with
  | case1 t blanks =>
      rename_i finished
      have exhausted := Head.read_eq_finished.1 finished
      refine ⟨fun lexemes found => ?_, by simp⟩
      cases found
      refine ⟨_, ofText_finished (by rw [resumes.code, exhausted]; rfl), ?_⟩
      simp only [Token.place, Position.after_nil, resumes.start]
      rfl
  | case2 t blanks form body =>
      rename_i never
      obtain ⟨body', read'⟩ := Head.open_crlf (Head.read_iff_open.1 never)
      rw [← resumes.code] at read'
      refine ⟨by simp, fun fault found => ?_⟩
      cases found
      exact ⟨_, ofText_open read', rfl, resumes.start⟩
  | case3 t blanks kind word rest read later readLater ih =>
      obtain ⟨unbrokenWord, unbrokenRest⟩ := unbroken.step read
      obtain ⟨word', rest', read', next, same⟩ := resumes.step line read unbrokenWord
      obtain ⟨later', readLater', tokens⟩ := (ih unbrokenRest
        ((line.trans (p.line_le_after _)).trans (Position.line_le_after _ word)) next).1 later readLater
      refine ⟨fun lexemes found => ?_, by simp⟩
      cases found
      refine ⟨_, by rw [ofText_step read', readLater'], ?_⟩
      rw [Token.place, Token.place]
      -- A comment may end differently, so only other lexemes are compared.
      by_cases comment : kind = .comment
      · rw [Token.code_cons_comment (by simp [Token.isComment, comment]),
          Token.code_cons_comment (by simp [Token.isComment, comment])]
        exact tokens
      · obtain ⟨rfl, stop⟩ := same comment
        rw [Token.code_cons (by simp [Token.isComment, comment]),
          Token.code_cons (by simp [Token.isComment, comment]), List.map_cons, tokens, stop,
          resumes.start]
        rfl
  | case4 t blanks kind word rest read fault readLater ih =>
      obtain ⟨unbrokenWord, unbrokenRest⟩ := unbroken.step read
      obtain ⟨word', rest', read', next, _⟩ := resumes.step line read unbrokenWord
      obtain ⟨fault', readLater', form, place⟩ := (ih unbrokenRest
        ((line.trans (p.line_le_after _)).trans (Position.line_le_after _ word)) next).2 fault readLater
      refine ⟨by simp, fun fault found => ?_⟩
      cases found
      refine ⟨{ fault' with before := t'.takeWhile isGap ++ word' ++ fault'.before },
        by rw [ofText_step read', readLater'], form, ?_⟩
      simpa only [Position.after_append] using place

end Lexeme

end FormatLint
