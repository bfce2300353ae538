import FormatLint.Proofs.Token.Insertion
import FormatLint.Proofs.Token.StringLiteral

/-!
A text on the lines below another one. If the last token above is not a line comment that goes on
behind the end of its line, then the tokens of the whole are those of both parts, and the ones below
stand as many lines further down: `Token.tokenize_above`.
-/

namespace FormatLint

/-- The text with another one on the lines below it. -/
def Text.above (text below : Text) : Text := text ++ .char '\n' :: below

/-- Moves what stands in a text to where it stands below another one. -/
def Relocation.below (text : Text) : Relocation where
  file := id
  place q := ⟨q.offset + text.length + 1, q.line + text.count (.char '\n') + 1, q.column⟩

namespace Relocation

theorem below_step (text : Text) (q : Position) (g : Glyph) :
    (below text).place (q.step g) = ((below text).place q).step g := by
  simp only [below, Position.step]
  split <;> simp only [Position.mk.injEq, and_true] <;> omega

theorem below_after (text : Text) (q : Position) (t : Text) :
    (below text).place (q.after t) = ((below text).place q).after t := by
  induction t generalizing q with
  | nil => rfl
  | cons g t ih => rw [Position.after_cons, Position.after_cons, ih, below_step]

end Relocation

theorem Position.after_line (p : Position) (t : Text) :
    (p.after t).line = p.line + t.count (.char '\n') := by
  induction t generalizing p with
  | nil => rfl
  | cons g t ih =>
      rw [after_cons, ih, step, List.count_cons]
      by_cases feed : g = .char '\n'
      · simp [feed]
        omega
      · simp [feed]

/-- The first place below a text is the one behind it and the end of its last line. -/
theorem Relocation.below_first (text : Text) :
    (below text).place .first = Position.first.after (text ++ [.char '\n']) := by
  rw [Position.after_append, Position.after_cons, Position.after_nil, Position.step, if_pos rfl,
    Position.after_line, Position.after_offset]
  simp only [below, Position.first]

theorem Token.steady_below (text : Text) (t : Token) : t.Steady (.below text) :=
  fun front _ => Relocation.below_after text t.span.start front

namespace Head

/-- A line comment that the end of a line behind it would not end. -/
def continues (word : Text) : Prop := Text.ofString "//" <+: word ∧ word.getLast? = some (.char '\\')

/-- A comment at the end of a text is read as before if there are lines below, unless it goes on
there. -/
theorem Form.comment_feed {word : Text} (form : Form .comment word []) (ends : ¬ continues word)
    (after : Text) : Form .comment word (.char '\n' :: after) := by
  obtain ⟨body, rfl, whole⟩ | ⟨body, rfl, closed⟩ := form.comment_inversion
  · have isLine := lineComment_eq_iff.1 whole
    refine .lineComment (lineComment_eq_iff.2 (isLine.feed ?_ after))
    intro slash
    refine ends ⟨⟨body, rfl⟩, ?_⟩
    cases body with
    | nil => cases slash
    | cons g body => exact slash
  · exact .blockComment (blockComment_replace _ closed)

end Head

namespace Lexeme

/-- The lexemes of a text are read as before if there are lines below. -/
theorem Chain.above {lexemes : List Lexeme} {blanks : Text} (chain : Chain lexemes blanks)
    (gaps : ∀ g ∈ blanks, isGap g = true)
    (ends : ∀ last ∈ lexemes.getLast?, last.kind = .comment → ¬ Head.continues last.text)
    (below : Text) : Chain lexemes (blanks ++ .char '\n' :: below) := by
  cases blanks with
  | cons g blanks =>
      refine (chain.succeed fun last _ => .same_glyph last.kind _ _ ?_).1
      rintro rfl
      exact absurd (gaps _ List.mem_cons_self) (by decide)
  | nil =>
      by_cases code : ∀ last ∈ lexemes.getLast?, last.kind ≠ .comment
      · exact (chain.succeed fun last member => .boundary (code last member) (by decide)).1
      -- A comment may notice what follows it, so the others are read in front of it.
      · push Not at code
        obtain ⟨last, final, comment⟩ := code
        obtain ⟨front, rfl⟩ := List.getLast?_eq_some_iff.1 final
        obtain ⟨before, behind⟩ := chain_append.1 chain
        cases behind with
        | cons blank starts form _ =>
            rw [comment] at form
            have slash : ∃ body, last.text = .char '/' :: body := by
              obtain ⟨body, spelled, _⟩ | ⟨body, spelled, _⟩ := form.comment_inversion
              · exact ⟨_, spelled⟩
              · exact ⟨_, spelled⟩
            obtain ⟨body, spelled⟩ := slash
            have closed := form.comment_feed (ends last final comment) below
            refine chain_append.2 ⟨(before.succeed fun other _ => ?_).1,
              .cons blank starts (comment ▸ closed) .nil⟩
            have same : Head.Succession other.kind (last.text ++ []) (last.text ++ .char '\n' :: below) := by
              rw [spelled]
              exact .same_glyph other.kind _ _ (by decide)
            simpa [flatten_cons, flatten] using gaps_follow blank same

/-- Blanks in front of a text become blanks in front of its first lexeme. -/
theorem ofText_behind {blanks t : Text} {l : Lexeme} {later : List Lexeme}
    (gaps : ∀ g ∈ blanks, isGap g = true) (read : ofText t = .ok (l :: later)) :
    ofText (blanks ++ t) = .ok ({ l with blanks := blanks ++ l.blanks } :: later) := by
  obtain ⟨chain, tail, same, rfl, chained, gapped⟩ := ofText_eq_ok_iff.1 read
  have longer {front : Text} (more : ∀ g ∈ front, isGap g = true) :
      ∀ g ∈ blanks ++ front, isGap g = true :=
    fun g member => (List.mem_append.1 member).elim (gaps g) (more g)
  cases chained with
  | nil =>
      cases same
      exact ofText_gaps (longer gapped)
  | cons blank starts form next =>
      cases same
      have chain := (Chain.cons blank starts form next).reblank (longer blank)
      have whole := ofText_chain chain (ofText_gaps gapped)
      simpa [flatten_cons] using whole

end Lexeme

namespace Token

theorem place_below (file text : Text) (p : Position) (lexemes : List Lexeme) :
    place file ((Relocation.below text).place p) lexemes =
      (place file p lexemes).map (relocate (.below text)) := by
  induction lexemes generalizing p with
  | nil => rfl
  | cons l later ih =>
      rw [place, place, List.map_cons, ← ih, Relocation.below_after, Relocation.below_after]
      simp only [relocate, Span.relocate, Relocation.below_after]
      rfl

/-- A text with another one on the lines below it consists of the tokens of both. -/
theorem tokenize_above {file text below : Text} {tokens others : List Token}
    (read : tokenize file text = .ok tokens) (read' : tokenize file below = .ok others)
    (ends : ∀ last ∈ tokens.dropLast.getLast?, last.kind = .comment → ¬ Head.continues last.lexeme) :
    tokenize file (text.above below) =
      .ok (tokens.dropLast ++ others.map (relocate (.below text))) := by
  obtain ⟨lexemes, cut, rfl⟩ := tokenize_eq_ok_iff.1 read
  obtain ⟨lexemes', cut', rfl⟩ := tokenize_eq_ok_iff.1 read'
  obtain ⟨chain, blanks, rfl, rfl, chained, gaps⟩ := Lexeme.ofText_eq_ok_iff.1 cut
  obtain ⟨chain', blanks', rfl, _, _, _⟩ := Lexeme.ofText_eq_ok_iff.1 cut'
  have front : (place file .first (chain ++ [⟨blanks, .eof, []⟩])).dropLast =
      place file .first chain := by
    rw [place_append, place, place, List.dropLast_concat]
  rw [front] at ends ⊢
  have closed : ∀ last ∈ chain.getLast?, last.kind = .comment → ¬ Head.continues last.text := by
    intro last final
    obtain ⟨earlier, rfl⟩ := List.getLast?_eq_some_iff.1 final
    rw [place_append, place, place, List.getLast?_concat] at ends
    exact ends _ rfl
  obtain ⟨l, later, first⟩ : ∃ l later, chain' ++ [⟨blanks', .eof, []⟩] = l :: later :=
    List.exists_cons_of_ne_nil (by simp)
  rw [first] at cut' ⊢
  have whole := Lexeme.ofText_chain (chained.above gaps closed below)
    (by simpa using Lexeme.ofText_behind (Lexeme.isGap_feed gaps) cut')
  rw [tokenize, Text.above, List.append_assoc, whole]
  refine congrArg Except.ok ?_
  rw [place_append, ← place_below, Relocation.below_first]
  simp [place]

end Token

end FormatLint
