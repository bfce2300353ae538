import FormatLint.Proofs.Token.Comment
import FormatLint.Proofs.Token.Literal
import FormatLint.Token.Lexeme

/-!
When the text behind a lexeme is changed, the lexeme is read as before if what follows it still does
not belong to it. `Head.Succession` lists the changes that no lexeme notices, whatever its kind.
-/

namespace FormatLint.Head

/-- Glyphs that no lexeme but a comment or a literal takes in behind its first glyph. -/
def isBoundary (g : Glyph) : Bool :=
  g = .char '(' || g = .char ')' || g = .char ',' || Lexeme.isGap g

def isAlpha (g : Glyph) : Bool := g.satisfies Char.isAlpha

/-- A lexeme of the kind shows where it ends, whatever follows it. A comment does so if it does not
end at the end of a line. -/
def Delimits (kind : TokenKind) (rest : Text) : Prop :=
  kind ∈ [.openParen, .closeParen, .comma, .string, .char] ∨
    kind = .comment ∧ rest ≠ [] ∧ rest.head? ≠ some (.char '\n')

/-- The second text may stand where the first one stood, behind a lexeme of the kind: both are
finished, or begin with the same glyph, or with letters, or the lexeme ends there anyway. -/
inductive Succession (kind : TokenKind) : Text → Text → Prop
  | finished : Succession kind [] []
  | same {g : Glyph} {before after : Text} (dots : g = .char '.' →
      after.head? = some (.char '.') → before.head? = some (.char '.')) :
      Succession kind (g :: before) (g :: after)
  | letter {g next : Glyph} {before after : Text} (first : isAlpha g = true)
      (second : isAlpha next = true) : Succession kind (g :: before) (next :: after)
  | boundary {g : Glyph} {before after : Text} (code : kind ≠ .comment)
      (bounds : isBoundary g = true) : Succession kind before (g :: after)
  | delimited {before after : Text} (closed : Delimits kind before) :
      Succession kind before after

theorem lineComment_rest {body rest : Text}
    (ends : Head.lineComment (body ++ rest) = (body, rest)) :
    rest = [] ∨ ∃ later, rest = .char '\n' :: later := by
  rcases (lineComment_eq_iff.1 ends).ends with atEnd | ⟨feed, _⟩
  · exact .inl atEnd
  · exact .inr (List.head?_eq_some_iff.1 feed)

theorem lineComment_replace {body before after : Text}
    (ends : lineComment (body ++ .char '\n' :: before) = (body, .char '\n' :: before)) :
    lineComment (body ++ .char '\n' :: after) = (body, .char '\n' :: after) :=
  have isLine := lineComment_eq_iff.1 ends
  lineComment_eq_iff.2 (isLine.feed (isLine.noSlash (List.cons_ne_nil _ _)) after)

theorem blockComment_replace {body before : Text} (after : Text)
    (closed : blockComment (body ++ before) = some (body, before)) :
    blockComment (body ++ after) = some (body, after) :=
  blockComment_eq_some_iff.2 (blockComment_eq_some_iff.1 closed)

theorem literalBody_replace {quote : Quote} {body before : Text} (after : Text)
    (closed : literalBody quote (body ++ quote.mark :: before) = (body, quote.mark :: before)) :
    literalBody quote (body ++ quote.mark :: after) = (body, quote.mark :: after) :=
  literalBody_eq_iff.2 (literalBody_eq_iff.1 closed)

theorem isNumberPart_of_isExponent {g : Glyph} (exponent : isExponent g = true) :
    isNumberPart g = true := by
  cases g with
  | raw byte => cases exponent
  | char c =>
      have listed : ['e', 'E', 'p', 'P'].all (fun letter => isNumberPart (.char letter)) = true := by
        decide
      exact List.all_eq_true.1 listed c (by simpa [isExponent] using exponent)

/-- Where a number ends, no other part of a number follows. -/
theorem numberTail_stops {t : Text} : ∀ g ∈ (numberTail t).2.head?, isNumberPart g = false := by
  fun_induction numberTail t <;> simp_all

theorem numberTail_nil {t : Text} (outside : ∀ g ∈ t.head?, isNumberPart g = false) :
    numberTail t = ([], t) := by
  cases t with
  | nil => rfl
  | cons g rest =>
      have noPart : isNumberPart g = false := outside g rfl
      have noExponent : isExponent g = false := by
        cases exponent : isExponent g with
        | false => rfl
        | true => simp [isNumberPart_of_isExponent exponent] at noPart
      cases rest <;> simp [numberTail, noPart, noExponent]

theorem numberTail_replace {body before after : Text}
    (ends : numberTail (body ++ before) = (body, before))
    (outside : after.head? = before.head? ∨
      ∀ g ∈ after.head?, isNumberPart g = false ∧ isSign g = false) :
    numberTail (body ++ after) = (body, after) := by
  have stops : ∀ g ∈ after.head?, isNumberPart g = false := by
    rcases outside with same | outside
    · intro g first
      have stopped := numberTail_stops (t := body ++ before)
      rw [ends, ← same] at stopped
      exact stopped g first
    · exact fun g first => (outside g first).1
  induction body using numberTail.induct with
  | case1 => exact numberTail_nil stops
  | case2 g part =>
      -- A sign behind an exponent would be read as a part of the number.
      have noSign : isExponent g = true → ∀ next ∈ after.head?, isSign next = false := by
        intro exponent next first
        rcases outside with same | outside
        · cases before with
          | nil => simp [same] at first
          | cons other before =>
              have equal : other = next := by simpa [same] using first
              subst equal
              cases sign : isSign other with
              | false => rfl
              | true => simp [numberTail, exponent, sign] at ends
        · exact (outside next first).2
      cases after with
      | nil => simp [numberTail, part]
      | cons next after =>
          have rest := numberTail_nil stops
          have unsigned : (isExponent g && isSign next) = false := by
            cases exponent : isExponent g with
            | false => rfl
            | true => simp [noSign exponent next rfl]
          simp [numberTail, part, unsigned, rest]
  | case3 g noPart =>
      have noExponent : isExponent g = false := by
        cases exponent : isExponent g with
        | false => rfl
        | true => exact absurd (isNumberPart_of_isExponent exponent) noPart
      cases before <;> simp [numberTail, noPart, noExponent] at ends
  | case4 g next rest signed _ _ _ ih =>
      simp only [List.cons_append, numberTail, signed, if_true, Prod.mk.injEq, List.cons.injEq,
        true_and] at ends ⊢
      have inner := ih (Prod.ext ends.1 ends.2)
      simp [inner]
  | case5 g next rest unsigned part _ _ _ ih =>
      simp only [List.cons_append, numberTail, unsigned, part, if_true, if_false, Prod.mk.injEq,
        List.cons.injEq, true_and, Bool.false_eq_true] at ends ⊢
      have inner := ih (Prod.ext ends.1 ends.2)
      rw [List.cons_append] at inner
      simp [inner]
  | case6 g next rest unsigned noPart => simp [numberTail, unsigned, noPart] at ends

theorem number?_eq_none {g : Glyph} {rest : Text} :
    number? (g :: rest) = none ↔ isAsciiDigit g = false ∧
      (g = .char '.' → ∀ next ∈ rest.head?, isAsciiDigit next = false) := by
  have dot : isAsciiDigit (.char '.') = false := by decide
  by_cases period : g = .char '.'
  · subst period
    cases rest with
    | nil => simp [number?, dot]
    | cons next rest => cases digit : isAsciiDigit next <;> simp [number?, dot, digit]
  · have alone : number? (g :: rest) =
        if isAsciiDigit g then some (g :: (numberTail rest).1, (numberTail rest).2) else none := by
      unfold number?
      split
      · rename_i equal
        cases equal
        exact absurd rfl period
      · rename_i equal
        cases equal
        rfl
      · contradiction
    cases digit : isAsciiDigit g <;> simp [alone, digit, period]

theorem number?_inversion {text word tail : Text} (counted : number? text = some (word, tail)) :
    ∃ lead body, word = lead ++ body ∧ numberTail (body ++ tail) = (body, tail) ∧
      ∀ rest, number? (lead ++ rest) =
        some (lead ++ (numberTail rest).1, (numberTail rest).2) := by
  have parts (rest : Text) : numberTail ((numberTail rest).1 ++ (numberTail rest).2) =
      ((numberTail rest).1, (numberTail rest).2) := by
    rw [numberTail_append]
  unfold number? at counted
  split at counted
  · rename_i g rest
    split at counted
    · rename_i digit
      cases counted
      exact ⟨[.char '.', g], (numberTail rest).1, rfl, parts rest, by simp [number?, digit]⟩
    · cases counted
  · rename_i g rest noPeriod
    split at counted
    · rename_i digit
      cases counted
      refine ⟨[g], (numberTail rest).1, rfl, parts rest, fun later => ?_⟩
      have period : g ≠ .char '.' := by
        rintro rfl
        exact absurd digit (by decide)
      unfold number?
      split
      · rename_i same
        exact absurd (List.cons.inj same).1 period
      · rename_i same
        obtain ⟨rfl, rfl⟩ := List.cons.inj same
        simp [digit]
      · rename_i same
        cases same
    · cases counted
  · cases counted

theorem number?_replace {word before after : Text}
    (counted : number? (word ++ before) = some (word, before))
    (outside : after.head? = before.head? ∨
      ∀ g ∈ after.head?, isNumberPart g = false ∧ isSign g = false) :
    number? (word ++ after) = some (word, after) := by
  obtain ⟨lead, body, rfl, ends, reads⟩ := number?_inversion counted
  have replaced := numberTail_replace ends outside
  rw [List.append_assoc, reads, replaced]

/-- The glyph stands behind the first glyph of some opening. -/
def continuesOpening (g : Glyph) : Bool := openings.any fun mark => g ∈ mark.tail

theorem longest_of_foreign {g next : Glyph} {more after : Text}
    (foreign : continuesOpening next = false) :
    ∀ mark ∈ openings, mark <+: g :: more ++ next :: after → mark.length ≤ more.length + 1 := by
  intro mark listed begins
  refine Nat.le_of_not_lt fun longer => ?_
  have reaches : (g :: more) ++ [next] <+: mark := by
    refine List.prefix_of_prefix_length_le ?_ begins (by simp; omega)
    exact ⟨after, by simp⟩
  obtain ⟨later, whole⟩ := reaches
  have inside : next ∈ mark.tail := by
    rw [← whole]
    simp
  have found : continuesOpening next = true :=
    List.any_eq_true.2 ⟨mark, listed, by simpa using inside⟩
  rw [foreign] at found
  cases found

theorem length_le_three : ∀ mark ∈ openings, mark.length ≤ 3 := by
  decide

theorem take_two_mem_openings :
    ∀ mark ∈ openings, mark.length ≤ 2 ∨ mark = "..." ∨ mark.take 2 ∈ openings := by
  decide

theorem longest_of_same {g next : Glyph} {more before after : Text}
    (dots : next = .char '.' → after.head? = some (.char '.') →
      before.head? = some (.char '.'))
    (longest : ∀ mark ∈ openings, mark <+: g :: more ++ next :: before →
      mark.length ≤ more.length + 1) :
    ∀ mark ∈ openings, mark <+: g :: more ++ next :: after → mark.length ≤ more.length + 1 := by
  intro mark listed begins
  refine Nat.le_of_not_lt fun longer => ?_
  have starts : (g :: more) ++ [next] <+: g :: more ++ next :: before := ⟨before, by simp⟩
  have reaches : (g :: more) ++ [next] <+: mark := by
    refine List.prefix_of_prefix_length_le ?_ begins (by simp; omega)
    exact ⟨after, by simp⟩
  by_cases fits : mark.length = more.length + 2
  · have whole : (g :: more) ++ [next] = mark := reaches.eq_of_length (by simp [fits])
    have bounded := longest mark listed (by rw [← whole]; exact starts)
    omega
  · have few := length_le_three mark listed
    have alone : more = [] := List.length_eq_zero_iff.1 (by omega)
    subst alone
    rcases take_two_mem_openings mark listed with short | rfl | pair
    · simp only [List.length_nil] at longer fits
      omega
    · obtain ⟨later, whole⟩ := begins
      obtain ⟨rfl, rfl, rfl⟩ : .char '.' = g ∧ .char '.' = next ∧ .char '.' :: later = after := by
        simpa [Text.ofString] using whole
      have third := dots rfl rfl
      cases before with
      | nil => cases third
      | cons last before =>
          cases Option.some.inj third
          have bounded := longest _ listed ⟨before, rfl⟩
          simp [Text.ofString] at bounded
    · have two : mark.take 2 = [g, next] := by
        obtain ⟨later, whole⟩ := reaches
        rw [← whole]
        rfl
      have bounded := longest _ pair (by rw [two]; exact starts)
      simp [two] at bounded

theorem symbol_replace {g next : Glyph} {more before after : Text} {kind : TokenKind}
    (unquoted : Quote.ofMark? g = none)
    (noWord : isWordStart g = false) (noNumber : number? (g :: more ++ before) = none)
    (spelled : kind = .punct ∧ g :: more ∈ longPunctuators ∨ kind = glyphKind g ∧ more = [])
    (foreign : continuesOpening next = false) (noDigit : isAsciiDigit next = false) :
    Form kind (g :: more) (next :: after) := by
  refine .symbol unquoted noWord ?_ (longest_of_foreign foreign) spelled
  obtain ⟨plain, fraction⟩ := number?_eq_none.1 noNumber
  refine number?_eq_none.2 ⟨plain, fun period digit first => ?_⟩
  cases more with
  | nil =>
      cases Option.some.inj first
      exact noDigit
  | cons second more => exact fraction period digit first

theorem boundary_classes {g : Glyph} (bounds : isBoundary g = true) :
    isWordPart g = false ∧ isNumberPart g = false ∧ isSign g = false ∧
      isAsciiDigit g = false ∧ Quote.ofMark? g = none ∧ continuesOpening g = false := by
  cases g with
  | raw byte => simp [isBoundary, Lexeme.isGap] at bounds
  | char c =>
      have classes : ['(', ')', ',', ' ', '\t', '\r', '\n', '\x0B', '\x0C'].all (fun mark =>
          isWordPart (.char mark) = false ∧ isNumberPart (.char mark) = false ∧
            isSign (.char mark) = false ∧ isAsciiDigit (.char mark) = false ∧
            Quote.ofMark? (.char mark) = none ∧ continuesOpening (.char mark) = false) = true := by
        decide
      refine of_decide_eq_true (List.all_eq_true.1 classes c ?_)
      simpa [isBoundary, Lexeme.isGap, or_assoc] using bounds

theorem alpha_classes {g : Glyph} (letter : isAlpha g = true) :
    isWordPart g = true ∧ isNumberPart g = true ∧ isAsciiDigit g = false ∧
      continuesOpening g = false := by
  cases g with
  | raw byte => cases letter
  | char c =>
      have alpha : c.isAlpha = true := letter
      have noDigit : c.isDigit = false := by
        cases digit : c.isDigit with
        | false => rfl
        | true =>
            rw [isAlpha_of_isDigit digit] at alpha
            cases alpha
      have foreign : continuesOpening (.char c) = false := by
        cases found : continuesOpening (.char c) with
        | false => rfl
        | true =>
            have noAlpha : ∀ mark ∈ openings, ∀ g ∈ mark.tail, isAlpha g = false := by decide
            obtain ⟨mark, listed, inside⟩ := List.any_eq_true.1 found
            have other := noAlpha mark listed (.char c) (by simpa using inside)
            rw [letter] at other
            cases other
      exact ⟨by simp [isWordPart, isLetter, alpha],
        by simp [isNumberPart, Char.isAlphanum, alpha], noDigit, foreign⟩

/-- A boundary may follow every lexeme that is no comment. -/
theorem Form.bounded {kind : TokenKind} {word before after : Text} {g : Glyph}
    (form : Form kind word before) (noComment : kind ≠ .comment)
    (bounds : isBoundary g = true) : Form kind word (g :: after) := by
  obtain ⟨noPart, noNumberPart, noSign, noDigit, unquoted, foreign⟩ := boundary_classes bounds
  have outside : ∀ p ∈ (g :: after).head?, isNumberPart p = false ∧ isSign p = false := by
    intro p first
    cases Option.some.inj first
    exact ⟨noNumberPart, noSign⟩
  cases form with
  | lineComment ends => exact absurd rfl noComment
  | blockComment closed => exact absurd rfl noComment
  | literal encoded closed => exact .literal encoded (literalBody_replace _ closed)
  | ident start parts ends bare =>
      refine .ident start parts ?_ ?_
      · intro p first
        cases Option.some.inj first
        exact noPart
      · intro quote first
        have marked := Quote.ofMark?_eq_some.2 (Option.some.inj first)
        rw [unquoted] at marked
        cases marked
  | number counted => exact .number (number?_replace counted (.inr outside))
  | symbol unquoted noWord noNumber longest spelled =>
      exact symbol_replace unquoted noWord noNumber spelled foreign noDigit

theorem glyphKind_delimiter {g : Glyph} {kind : TokenKind}
    (closed : kind ∈ [.openParen, .closeParen, .comma, .string, .char])
    (same : kind = glyphKind g) : g ∈ [Glyph.char '(', .char ')', .char ','] := by
  subst same
  unfold glyphKind at closed
  split at closed
  · simp_all
  · split at closed
    · simp_all
    · split at closed
      · simp_all
      · split at closed <;> simp at closed

/-- Anything may follow a parenthesis, a comma, a literal or a closed comment. -/
theorem Form.delimited {kind : TokenKind} {word before : Text} (after : Text)
    (form : Form kind word before) (closed : Delimits kind before) : Form kind word after := by
  cases form with
  | lineComment ends =>
      rcases closed with closed | ⟨_, more, sameLine⟩
      · simp at closed
      · rcases lineComment_rest ends with rfl | ⟨later, rfl⟩
        · exact absurd rfl more
        · exact absurd rfl sameLine
  | blockComment closes => exact .blockComment (blockComment_replace after closes)
  | literal encoded closes => exact .literal encoded (literalBody_replace after closes)
  | ident => simp [Delimits] at closed
  | number => simp [Delimits] at closed
  | symbol unquoted noWord noNumber longest spelled =>
      rename_i g more
      have delimiter : g ∈ [Glyph.char '(', .char ')', .char ','] ∧ more = [] := by
        rcases spelled with ⟨rfl, _⟩ | ⟨same, alone⟩
        · simp [Delimits] at closed
        · refine ⟨?_, alone⟩
          rcases closed with closed | ⟨comment, _⟩
          · exact glyphKind_delimiter closed same
          · subst comment
            unfold glyphKind at same
            grind
      obtain ⟨listed, rfl⟩ := delimiter
      refine .symbol unquoted noWord ?_ ?_ spelled
      · refine number?_eq_none.2 ⟨(number?_eq_none.1 noNumber).1, ?_⟩
        rintro rfl
        exact absurd listed (by decide)
      · intro mark opening begins
        have foreign : ∀ mark ∈ openings, ∀ p ∈ mark.head?,
            p ∉ [Glyph.char '(', .char ')', .char ','] := by decide
        have longer := two_le_length_of_mem_openings opening
        cases mark with
        | nil => simp at longer
        | cons first mark =>
            have same := (List.cons_prefix_cons.1 begins).1
            exact absurd listed (foreign _ opening g (by simp [same]))

theorem Form.delimiter_start {kind : TokenKind} {word before : Text}
    (form : Form kind word before) (closed : Delimits kind before) :
    word.head? ≠ some (.char '.') := by
  intro period
  cases form with
  | lineComment => cases period
  | blockComment => cases period
  | literal encoded closes =>
      rename_i quote encoding body
      have starts : ∀ name ∈ quote.encodings, name.head? ≠ some (.char '.') ∧ name ≠ [] := by
        cases quote <;> decide
      rcases encoded with rfl | encodes
      · cases quote <;> cases period
      · obtain ⟨noPeriod, nonempty⟩ := starts encoding encodes
        cases encoding with
        | nil => exact nonempty rfl
        | cons g name => exact noPeriod period
  | ident start =>
      cases Option.some.inj period
      exact absurd start (by decide)
  | number => simp [Delimits] at closed
  | symbol unquoted noWord noNumber longest spelled =>
      cases Option.some.inj period
      rcases spelled with ⟨rfl, _⟩ | ⟨rfl, _⟩
      · simp [Delimits] at closed
      · simp [Delimits, glyphKind, shortPunctuators, Text.ofString] at closed

theorem Form.same {kind : TokenKind} {word before after : Text} {g : Glyph}
    (form : Form kind word (g :: before))
    (dots : g = .char '.' → after.head? = some (.char '.') →
      before.head? = some (.char '.')) :
    Form kind word (g :: after) := by
  cases form with
  | lineComment ends =>
      rcases lineComment_rest ends with atEnd | ⟨later, line⟩
      · cases atEnd
      · cases line
        exact .lineComment (lineComment_replace ends)
  | blockComment closed => exact .blockComment (blockComment_replace _ closed)
  | literal encoded closed => exact .literal encoded (literalBody_replace _ closed)
  | ident start parts ends bare => exact .ident start parts ends bare
  | number counted => exact .number (number?_replace counted (.inl rfl))
  | symbol unquoted noWord noNumber longest spelled =>
      rename_i first more
      refine .symbol unquoted noWord ?_ (longest_of_same dots longest) spelled
      obtain ⟨plain, fraction⟩ := number?_eq_none.1 noNumber
      refine number?_eq_none.2 ⟨plain, fun period digit next => ?_⟩
      refine fraction period digit ?_
      cases more with
      | nil => exact next
      | cons second more => exact next

theorem Form.letter {kind : TokenKind} {word before after : Text} {g next : Glyph}
    (form : Form kind word (g :: before)) (first : isAlpha g = true)
    (second : isAlpha next = true) : Form kind word (next :: after) := by
  obtain ⟨part, numberPart, _, _⟩ := alpha_classes first
  obtain ⟨_, _, noDigit, foreign⟩ := alpha_classes second
  cases form with
  | lineComment ends =>
      rcases lineComment_rest ends with atEnd | ⟨later, line⟩
      · cases atEnd
      · cases line
        exact absurd first (by decide)
  | blockComment closed => exact .blockComment (blockComment_replace _ closed)
  | literal encoded closed => exact .literal encoded (literalBody_replace _ closed)
  | ident start parts ends bare =>
      have outside := ends g rfl
      rw [part] at outside
      cases outside
  | number counted =>
      obtain ⟨lead, body, _, ends, _⟩ := number?_inversion counted
      have stops := numberTail_stops (t := body ++ g :: before)
      rw [ends] at stops
      have outside := stops g rfl
      rw [numberPart] at outside
      cases outside
  | symbol unquoted noWord noNumber longest spelled =>
      exact symbol_replace unquoted noWord noNumber spelled foreign noDigit

/-- A lexeme is read as before if what follows it is succeeded by something else. -/
theorem Form.succeed {kind : TokenKind} {word before after : Text}
    (form : Form kind word before) (next : Succession kind before after) :
    Form kind word after := by
  cases next with
  | finished => exact form
  | same dots => exact form.same dots
  | letter first second => exact form.letter first second
  | boundary code bounds => exact form.bounded code bounds
  | delimited closed => exact form.delimited after closed

namespace Succession

theorem refl (kind : TokenKind) (t : Text) : Succession kind t t := by
  cases t with
  | nil => exact .finished
  | cons g rest => exact .same fun _ second => second

/-- Behind a glyph that is no period, anything may be changed. -/
theorem same_glyph {g : Glyph} (kind : TokenKind) (before after : Text) (other : g ≠ .char '.') :
    Succession kind (g :: before) (g :: after) :=
  .same fun period => absurd period other

/-- Whatever stands in front of it, a text that begins with a boundary may stand where another one
stood, unless that began with the end of a line. -/
theorem of_boundary {g next : Glyph} (kind : TokenKind) (before after : Text)
    (inside : g ≠ .char '\n') (bounds : isBoundary next = true) :
    Succession kind (g :: before) (next :: after) := by
  by_cases comment : kind = .comment
  · exact .delimited (.inr ⟨comment, by simp, by simpa using inside⟩)
  · exact .boundary comment bounds

/-- A lexeme and what follows it may be succeeded if what follows it may. -/
theorem behind {kind : TokenKind} {word before after : Text} (form : Form kind word before)
    (next : Succession kind before after) (previous : TokenKind) :
    Succession previous (word ++ before) (word ++ after) := by
  have nonempty := (read_lexeme (read_of_form form)).2
  cases word with
  | nil => exact absurd rfl nonempty
  | cons g word =>
      refine .same fun period second => ?_
      subst period
      cases word with
      | cons other word => exact second
      | nil =>
          change after.head? = _ at second
          change before.head? = _
          cases next with
          | finished => exact second
          | same => exact second
          | letter _ letter =>
              cases Option.some.inj second
              exact absurd letter (by decide)
          | boundary _ bounds =>
              cases Option.some.inj second
              exact absurd bounds (by decide)
          | delimited closed => exact absurd rfl (form.delimiter_start closed)

end Succession

end FormatLint.Head
