import FormatLint.Proofs.Token.Below
import FormatLint.Proofs.Token.Scan

/-!
A token does not depend on what stands in front of it, and hardly on what stands behind it.
`Token.tokenize_reread` says that tokens written one below the other are read again, and that a text is
read from the start of any of its tokens on as it is read there in the whole.
-/

namespace FormatLint

/-- The tokens one below the other, without the empty one at the end. -/
def Token.printed (tokens : List Token) : Text :=
  (tokens.filter (·.kind ≠ .eof)).flatMap fun t => t.lexeme ++ [.char '\n']

/-- The end of a line may follow every lexeme, except a line comment at the end of the text that would
go on there. -/
theorem Head.Form.feed {kind : TokenKind} {word rest : Text} (form : Form kind word rest)
    (ends : rest = [] → kind = .comment → ¬ continues word) (after : Text) :
    Form kind word (.char '\n' :: after) := by
  by_cases comment : kind = .comment
  · subst comment
    cases rest with
    | nil => exact form.comment_feed (ends rfl rfl) after
    | cons g rest =>
        by_cases feed : g = .char '\n'
        · subst feed
          exact form.same (by simp)
        · exact form.delimited _ (.inr ⟨rfl, by simp, by simpa using feed⟩)
  · exact form.bounded comment (by decide)

/-- Lexemes that are read one after the other are read one below the other as well. -/
theorem Scan.of_feeds {lexemes : List Lexeme} {blanks : Text} (chain : Lexeme.Chain lexemes blanks)
    (ends : ∀ last ∈ lexemes.getLast?, last.kind = .comment → ¬ Head.continues last.text) :
    Scan (lexemes.flatMap fun l => l.text ++ [.char '\n']) (lexemes.map Lexeme.word) [] := by
  induction chain with
  | nil => exact .nil
  | @cons l later blanks _ starts form next ih =>
      have below : Scan (.char '\n' :: later.flatMap fun l => l.text ++ [.char '\n'])
          (later.map Lexeme.word) [] := by
        refine .gap (by decide) (ih fun last final => ?_)
        cases later with
        | nil => cases final
        | cons other later => exact ends last (by rwa [List.getLast?_cons_cons])
      have closes : Lexeme.flatten later ++ blanks = [] → l.kind = .comment →
          ¬ Head.continues l.text := by
        intro empty
        cases next with
        | nil => exact ends l rfl
        | cons _ _ form _ =>
            rw [Lexeme.flatten_cons] at empty
            exact absurd (by simp_all) (Lexeme.form_text_ne_nil form)
      rw [List.flatMap_cons, List.append_assoc, List.singleton_append, List.map_cons]
      exact .word starts (form.feed closes _) below

namespace Token

theorem printed_place (file : Text) (p : Position) {lexemes : List Lexeme}
    (code : ∀ l ∈ lexemes, l.kind ≠ .eof) (blanks : Text) :
    printed (place file p (lexemes ++ [⟨blanks, .eof, []⟩])) =
      lexemes.flatMap fun l => l.text ++ [.char '\n'] := by
  induction lexemes generalizing p with
  | nil => rfl
  | cons l later ih =>
      have rest := ih ((p.after l.blanks).after l.text)
        fun other member => code other (List.mem_cons_of_mem l member)
      have kept := code l List.mem_cons_self
      rw [printed] at rest ⊢
      rw [List.cons_append, place, List.filter_cons_of_pos (by simpa using kept), List.flatMap_cons,
        rest, List.flatMap_cons]

/-- Tokens that are written one below the other are read again, unless the last one is a comment that
goes on behind the end of its line. -/
theorem tokenize_printed {file text : Text} {tokens : List Token}
    (read : tokenize file text = .ok tokens)
    (ends : ∀ last ∈ tokens.dropLast.getLast?, last.kind = .comment →
      ¬ Head.continues last.lexeme) :
    ∃ others, tokenize file (printed tokens) = .ok others ∧ others.map word = tokens.map word := by
  obtain ⟨lexemes, cut, rfl⟩ := tokenize_eq_ok_iff.1 read
  obtain ⟨chain, blanks, rfl, rfl, chained, _⟩ := Lexeme.ofText_eq_ok_iff.1 cut
  have final : ∀ last ∈ chain.getLast?, last.kind = .comment → ¬ Head.continues last.text := by
    intro last member
    obtain ⟨earlier, rfl⟩ := List.getLast?_eq_some_iff.1 member
    rw [place_append, place, place, List.dropLast_concat, place_append, place, place,
      List.getLast?_concat] at ends
    exact ends _ rfl
  obtain ⟨others, again, words⟩ := (Scan.of_feeds chained final).tokenize file Lexeme.gaps_nil
  refine ⟨others, ?_, ?_⟩
  · rw [printed_place file .first chained.kind_ne_eof, ← List.append_nil (List.flatMap _ _)]
    exact again
  · rw [words]
    change _ = (place file .first (chain ++ [⟨blanks, .eof, []⟩])).map fun t => (t.kind, t.lexeme)
    rw [place_lexemes, List.map_append]
    rfl

end Token

theorem Lexeme.ofText_from {text : Text} {before later : List Lexeme} {l : Lexeme}
    (read : ofText text = .ok (before ++ l :: later)) :
    ofText (l.text ++ flatten later) = .ok ({ l with blanks := [] } :: later) := by
  obtain ⟨chain, blanks, parts, _, chained, gaps⟩ := ofText_eq_ok_iff.1 read
  rcases List.eq_nil_or_concat later with rfl | ⟨more, last, rfl⟩
  · obtain ⟨_, same⟩ := List.append_inj' parts rfl
    cases same
    exact ofText_gaps gaps_nil
  · rw [List.concat_eq_append, ← List.cons_append, ← List.append_assoc] at parts
    obtain ⟨rfl, same⟩ := List.append_inj' parts rfl
    cases same
    have back := (chain_append.1 chained).2.reblank gaps_nil
    have cut := ofText_chain back (ofText_gaps gaps)
    simpa [flatten_cons, flatten_append, flatten] using cut

namespace Token

theorem tokenize_from {file text : Text} {front back : List Token} {t : Token}
    (read : tokenize file text = .ok (front ++ t :: back)) :
    ∃ others, tokenize file (text.drop t.span.start.offset) = .ok others ∧
      others.map (relocate (.rebase .first t.span.start)) = t :: back := by
  obtain ⟨lexemes, cut, placed⟩ := tokenize_eq_ok_iff.1 read
  obtain ⟨before, after, rfl, _, behind⟩ := place_split placed.symm
  cases after with
  | nil => cases behind
  | cons l later =>
      have whole := Lexeme.flatten_ofText cut
      rw [place] at behind
      obtain ⟨rfl, rfl⟩ := List.cons.inj behind
      dsimp only
      generalize start : (Position.first.after (Lexeme.flatten before)).after l.blanks = p
      have offset : p.offset = (Lexeme.flatten before ++ l.blanks).length := by
        rw [← start, ← Position.after_append, Position.after_offset]
        exact Nat.zero_add _
      have rest : text.drop p.offset = l.text ++ Lexeme.flatten later := by
        rw [← whole, offset, Lexeme.flatten_append, Lexeme.flatten_cons, List.append_assoc,
          ← List.append_assoc, List.drop_left]
      refine ⟨place file .first ({ l with blanks := [] } :: later), ?_, ?_⟩
      · rw [rest, tokenize, Lexeme.ofText_from cut]
      · exact (place_rebase file .first p [] ({ l with blanks := [] } :: later)).symm

/-- Tokens are read again if they are written one below the other, unless the last one is a comment
that goes on behind the end of its line. And from the start of any token on a text has the tokens that
it has there in the whole, as far from its beginning as they are from that place. -/
theorem tokenize_reread {file text : Text} {tokens : List Token}
    (read : tokenize file text = .ok tokens) :
    ((∀ last ∈ tokens.dropLast.getLast?, last.kind = .comment → ¬ Head.continues last.lexeme) →
      ∃ others, tokenize file (printed tokens) = .ok others ∧
        others.map word = tokens.map word) ∧
    ∀ front t back, tokens = front ++ t :: back →
      ∃ others, tokenize file (text.drop t.span.start.offset) = .ok others ∧
        others.map (relocate (.rebase .first t.span.start)) = t :: back := by
  refine ⟨tokenize_printed read, ?_⟩
  rintro front t back rfl
  exact tokenize_from read

/-- Lexemes without gaps between them. The last one goes on behind the end of a line. -/
def adjacent : List Lexeme :=
  [⟨[], .ident, "u8"⟩, ⟨[], .char, "'a'"⟩, ⟨[], .comment, "/*/*/"⟩, ⟨[], .punct, "."⟩,
    ⟨[], .other, ".5e+"⟩, ⟨[], .punct, "->"⟩, ⟨[], .comment, "//c\\\nd"⟩]

theorem chain_adjacent : Lexeme.Chain adjacent [] := by
  repeat' first
    | exact .nil
    | refine .cons (by decide) (by decide) (Head.read_iff_form.1 rfl) ?_

/-- One below the other they are read again, and from the number on they are read as in the whole. -/
theorem tokenize_reread_adjacent :
    tokenize [] "u8'a'/*/*/..5e+->//c\\\nd" =
        .ok (place [] .first (adjacent ++ [⟨[], .eof, []⟩])) ∧
      (∃ others, tokenize [] "u8\n'a'\n/*/*/\n.\n.5e+\n->\n//c\\\nd\n" = .ok others ∧
        others.map word = adjacent.map Lexeme.word ++ [(.eof, [])]) ∧
      ∃ others, tokenize [] ".5e+->//c\\\nd" = .ok others ∧
        others.map (relocate (.rebase .first ⟨11, 1, 12⟩)) =
          (place [] .first (adjacent ++ [⟨[], .eof, []⟩])).drop 4 := by
  have read : tokenize [] "u8'a'/*/*/..5e+->//c\\\nd" =
      .ok (place [] .first (adjacent ++ [⟨[], .eof, []⟩])) := Lexeme.tokenize_words chain_adjacent []
  obtain ⟨printed, behind⟩ := tokenize_reread read
  refine ⟨read, ?_, ?_⟩
  · refine printed fun last final _ => ?_
    cases Option.some.inj final
    rintro ⟨_, slash⟩
    exact absurd slash (by decide)
  · exact behind ((place [] .first adjacent).take 4) _ _ rfl

end Token

end FormatLint
