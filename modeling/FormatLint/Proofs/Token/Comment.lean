import FormatLint.Proofs.Token.Form

/-!
Comments. `Head.form_comment_iff` says that a comment is read exactly if it is spelled as one: up to
the end of its line, or up to the first mark that closes it.
-/

namespace FormatLint

namespace Text

/-- The text in front of `rest` reaches to the end of its line. A line goes on behind a line feed that
has a backslash in front of it. -/
structure IsLine (line rest : Text) : Prop where
  continued : ∀ front back, line = front ++ .char '\n' :: back → front.getLast? = some (.char '\\')
  ends : rest = [] ∨ rest.head? = some (.char '\n') ∧ line.getLast? ≠ some (.char '\\')

/-- The text reaches to the first closing mark of a block comment and takes it in. -/
structure IsClosed (t : Text) : Prop where
  closed : ofString "*/" <:+ t
  first : ∀ front back, t = front ++ (ofString "*/" ++ back) → back = []

/-- A comment in front of `rest`. The first two glyphs are not part of the line, or of a closing mark. -/
def IsComment (word rest : Text) : Prop :=
  (∃ line, word = ofString "//" ++ line ∧ IsLine line rest) ∨
    ∃ inner, word = ofString "/*" ++ inner ∧ IsClosed inner

theorem IsLine.noSlash {line rest : Text} (isLine : IsLine line rest) (more : rest ≠ []) :
    line.getLast? ≠ some (.char '\\') :=
  (isLine.ends.resolve_left more).2

theorem IsLine.feed {line rest : Text} (isLine : IsLine line rest)
    (noSlash : line.getLast? ≠ some (.char '\\')) (after : Text) : IsLine line (.char '\n' :: after) :=
  ⟨isLine.continued, .inr ⟨rfl, noSlash⟩⟩

theorem IsLine.nil {rest : Text} (ends : rest = [] ∨ rest.head? = some (.char '\n')) :
    IsLine [] rest :=
  ⟨by simp, ends.imp_right fun feed => ⟨feed, by simp⟩⟩

theorem IsLine.plain {g : Glyph} {line rest : Text} (isLine : IsLine line rest)
    (noFeed : g ≠ .char '\n')
    (noSlash : rest.head? = some (.char '\n') → line = [] → g ≠ .char '\\') :
    IsLine (g :: line) rest := by
  constructor
  · intro front back whole
    cases front with
    | nil => exact absurd (List.cons.inj whole).1 noFeed
    | cons first front =>
        rw [List.getLast?_cons, isLine.continued front back (List.cons.inj whole).2]
        rfl
  · refine isLine.ends.imp_right fun ends => ⟨ends.1, ?_⟩
    cases line with
    | nil => simpa using noSlash ends.1 rfl
    | cons other line => simpa using ends.2

/-- A line goes on behind a backslash and a line feed. -/
theorem IsLine.continuation {line rest : Text} (isLine : IsLine line rest) :
    IsLine (.char '\\' :: .char '\n' :: line) rest := by
  constructor
  · intro front back whole
    cases front with
    | nil => cases (List.cons.inj whole).1
    | cons first front =>
        obtain ⟨rfl, behind⟩ := List.cons.inj whole
        cases front with
        | nil => rfl
        | cons second front =>
            rw [List.getLast?_cons_cons, List.getLast?_cons,
              isLine.continued front back (List.cons.inj behind).2]
            rfl
  · refine isLine.ends.imp_right fun ends => ⟨ends.1, ?_⟩
    cases line with
    | nil => simp
    | cons other line => simpa using ends.2

theorem IsLine.not_continued {line rest rest' more : Text} {g : Glyph}
    (first : IsLine line (g :: rest)) (second : IsLine (line ++ g :: more) rest') : False := by
  rcases first.ends with atEnd | ⟨feed, noSlash⟩
  · cases atEnd
  · cases Option.some.inj feed
    exact noSlash (second.continued line more rfl)

theorem IsLine.unique {line line' rest rest' : Text} (first : IsLine line rest)
    (second : IsLine line' rest') (same : line ++ rest = line' ++ rest') :
    line = line' ∧ rest = rest' := by
  rcases List.append_eq_append_iff.1 same with ⟨more, rfl, rfl⟩ | ⟨more, rfl, rfl⟩
  · cases more with
    | nil => simp
    | cons g more => exact (first.not_continued second).elim
  · cases more with
    | nil => simp
    | cons g more => exact (second.not_continued first).elim

theorem IsClosed.unique {t t' rest rest' : Text} (first : IsClosed t) (second : IsClosed t')
    (same : t ++ rest = t' ++ rest') : t = t' ∧ rest = rest' := by
  have shorter : ∀ {front more : Text}, IsClosed front → IsClosed (front ++ more) → more = [] := by
    rintro _ more ⟨⟨inner, rfl⟩, _⟩ whole
    exact whole.first inner more (List.append_assoc _ _ _)
  rcases List.append_eq_append_iff.1 same with ⟨more, rfl, rfl⟩ | ⟨more, rfl, rfl⟩
  · simp [shorter first second]
  · simp [shorter second first]

end Text

namespace Head

open Text (IsLine IsClosed)

theorem lineComment_isLine (t : Text) : IsLine (lineComment t).1 (lineComment t).2 := by
  fun_induction lineComment t with
  | case1 => exact .nil (.inl rfl)
  | case2 => exact .nil (.inr rfl)
  | case3 g noFeed => exact (IsLine.nil (.inl rfl)).plain noFeed (by simp)
  | case4 => exact .nil (.inr rfl)
  | case5 g next rest noFeed continued body tail read ih =>
      obtain ⟨rfl, rfl⟩ := continued
      rw [read] at ih
      exact ih.continuation
  | case6 g next rest noFeed broken body tail read ih =>
      have parts := lineComment_append (next :: rest)
      rw [read] at ih parts
      refine ih.plain noFeed fun feed empty slash => broken ⟨slash, ?_⟩
      -- The line ends behind `g`, so the line feed that ends it is the next glyph.
      obtain rfl : body = [] := empty
      obtain rfl : tail = next :: rest := parts
      exact Option.some.inj feed

/-- A line comment takes the rest of its line. -/
theorem lineComment_eq_iff {line rest : Text} :
    lineComment (line ++ rest) = (line, rest) ↔ IsLine line rest := by
  have read := lineComment_isLine (line ++ rest)
  constructor
  · intro ends
    rwa [ends] at read
  · intro isLine
    exact Prod.ext_iff.2 (read.unique isLine (lineComment_append _))

theorem blockComment_cons {g : Glyph} {rest : Text}
    (unclosed : ¬ (g = .char '*' ∧ rest.head? = some (.char '/'))) :
    blockComment (g :: rest) =
      (blockComment rest).map fun (body, tail) => (g :: body, tail) := by
  conv => lhs; unfold blockComment
  split
  · contradiction
  · rename_i later equal
    cases equal
    exact absurd ⟨rfl, rfl⟩ unclosed
  · rename_i equal
    cases equal
    rfl

theorem blockComment_isClosed {t body tail : Text} (closed : blockComment t = some (body, tail)) :
    IsClosed body := by
  fun_induction blockComment t generalizing body tail with
  | case1 => cases closed
  | case2 rest =>
      cases closed
      refine ⟨List.suffix_refl _, fun front back whole => ?_⟩
      have length := congrArg List.length whole
      have two : (Text.ofString "*/").length = 2 := rfl
      simp only [List.length_append, List.length_cons, List.length_nil, two] at length
      exact List.eq_nil_of_length_eq_zero (by omega)
  | case3 g rest opens ih =>
      obtain ⟨⟨inner, later⟩, found, equal⟩ := Option.map_eq_some_iff.1 closed
      cases equal
      have inside := ih found
      refine ⟨inside.closed.trans (List.suffix_cons g inner), fun front back whole => ?_⟩
      cases front with
      | nil =>
          obtain ⟨rfl, content⟩ := List.cons.inj whole
          have reads := blockComment_append found
          rw [content] at reads
          exact (opens (back ++ tail) rfl reads.symm).elim
      | cons _ front => exact inside.first front back (List.cons.inj whole).2

theorem blockComment_eq_none {t : Text} (never : blockComment t = none) :
    ¬ Text.ofString "*/" <:+: t := by
  fun_induction blockComment t with
  | case1 => simp [Text.ofString]
  | case2 => cases never
  | case3 g rest opens ih =>
      have inside := ih (Option.map_eq_none_iff.1 never)
      rw [List.infix_cons_iff]
      rintro (⟨later, whole⟩ | later)
      · obtain ⟨rfl, rfl⟩ := List.cons.inj whole
        exact opens later rfl rfl
      · exact inside later

/-- A block comment takes all up to and with the first closing mark. -/
theorem blockComment_eq_some_iff {body rest : Text} :
    blockComment (body ++ rest) = some (body, rest) ↔ IsClosed body := by
  refine ⟨blockComment_isClosed, fun isClosed => ?_⟩
  cases read : blockComment (body ++ rest) with
  | none =>
      have inside := isClosed.closed.isInfix.trans (List.prefix_append body rest).isInfix
      exact absurd inside (blockComment_eq_none read)
  | some parts =>
      obtain ⟨rfl, rfl⟩ :=
        (blockComment_isClosed read).unique isClosed (blockComment_append read)
      rfl

theorem glyphKind_ne_comment (g : Glyph) : glyphKind g ≠ .comment := by
  unfold glyphKind
  repeat' split
  all_goals simp

theorem Form.comment_inversion {word rest : Text} (form : Form .comment word rest) :
    (∃ body, word = .char '/' :: .char '/' :: body ∧
        Head.lineComment (body ++ rest) = (body, rest)) ∨
      ∃ body, word = .char '/' :: .char '*' :: body ∧
        Head.blockComment (body ++ rest) = some (body, rest) := by
  generalize same : TokenKind.comment = kind at form
  cases form with
  | lineComment whole => exact .inl ⟨_, rfl, whole⟩
  | blockComment closed => exact .inr ⟨_, rfl, closed⟩
  | @literal quote => cases quote <;> cases same
  | ident => cases same
  | number => cases same
  | symbol _ _ _ _ spelled =>
      subst same
      rcases spelled with ⟨plain, _⟩ | ⟨plain, _⟩
      · cases plain
      · exact absurd plain.symm (glyphKind_ne_comment _)

/-- A comment is read exactly if it is spelled as one. -/
theorem form_comment_iff {word rest : Text} : Form .comment word rest ↔ Text.IsComment word rest := by
  constructor
  · intro form
    obtain ⟨line, rfl, ends⟩ | ⟨inner, rfl, closed⟩ := form.comment_inversion
    · exact .inl ⟨line, rfl, lineComment_eq_iff.1 ends⟩
    · exact .inr ⟨inner, rfl, blockComment_eq_some_iff.1 closed⟩
  · rintro (⟨line, rfl, isLine⟩ | ⟨inner, rfl, isClosed⟩)
    · exact .lineComment (lineComment_eq_iff.2 isLine)
    · exact .blockComment (blockComment_eq_some_iff.2 isClosed)

end Head

end FormatLint
