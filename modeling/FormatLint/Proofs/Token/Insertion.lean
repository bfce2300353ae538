import FormatLint.Proofs.Analysis.Relocation
import FormatLint.Proofs.Token.Chain

/-!
Words that are inserted in front of a token, with blanks before them and others behind, such as a line
or a comment. `Token.tokenize_insert` says that the tokens before them stay, and that those behind them
move.
-/

namespace FormatLint

/-- Moves what stands behind the place `p` to where it stands if it begins at `p'` instead. -/
def Relocation.rebase (p p' : Position) : Relocation where
  file := id
  place q := ⟨p'.offset + (q.offset - p.offset), p'.line + (q.line - p.line),
    if q.line = p.line then p'.column + (q.column - p.column) else q.column⟩

theorem Position.after_column (p : Position) (t : Text) :
    (p.after t).line = p.line → (p.after t).column = p.column + t.length := by
  induction t using List.reverseRecOn with
  | nil => intro _; rfl
  | append_singleton t g ih =>
      have below := p.line_le_after t
      rw [after_append, after_cons, after_nil, List.length_append, List.length_singleton, step]
      split
      · intro same
        dsimp only at same
        omega
      · intro same
        have column := ih same
        dsimp only
        omega

theorem Relocation.rebase_after (p p' : Position) (t : Text) :
    (rebase p p').place (p.after t) = p'.after t := by
  induction t using List.reverseRecOn with
  | nil => simp [rebase]
  | append_singleton t g ih =>
      have below := p.line_le_after t
      have column := p.after_column t
      have offset := p.after_offset t
      rw [Position.after_append, Position.after_append, ← ih]
      simp only [Position.after_cons, Position.after_nil, rebase, Position.step]
      by_cases feed : g = .char '\n'
      · have later : (p.after t).line + 1 ≠ p.line := by omega
        rw [if_pos feed, if_pos feed]
        simp only [if_neg later, Position.mk.injEq, and_true]
        omega
      · rw [if_neg feed, if_neg feed]
        by_cases same : (p.after t).line = p.line
        · have grown := column same
          simp only [if_pos same, Position.mk.injEq, true_and]
          omega
        · simp only [if_neg same, Position.mk.injEq, and_true]
          omega

namespace Token

/-- Lexemes that begin at another place become the same tokens, moved there. -/
theorem place_rebase (file : Text) (p p' : Position) (front : Text) (lexemes : List Lexeme) :
    place file (p'.after front) lexemes =
      (place file (p.after front) lexemes).map (relocate (.rebase p p')) := by
  induction lexemes generalizing front with
  | nil => rfl
  | cons l later ih =>
      have start := Relocation.rebase_after p p' (front ++ l.blanks)
      have stop := Relocation.rebase_after p p' (front ++ l.blanks ++ l.text)
      have rest := ih (front ++ l.blanks ++ l.text)
      simp only [Position.after_append] at start stop rest
      rw [place, place, rest, List.map_cons, relocate, Span.relocate, start, stop]
      rfl

theorem place_split {file : Text} {p : Position} {lexemes : List Lexeme} {front back : List Token}
    (placed : place file p lexemes = front ++ back) :
    ∃ before after, lexemes = before ++ after ∧ front = place file p before ∧
      back = place file (p.after (Lexeme.flatten before)) after := by
  induction front generalizing p lexemes with
  | nil => exact ⟨[], lexemes, rfl, rfl, placed.symm⟩
  | cons t front ih =>
      cases lexemes with
      | nil => cases placed
      | cons l later =>
          rw [place, List.cons_append, List.cons.injEq] at placed
          obtain ⟨rfl, rest⟩ := placed
          obtain ⟨before, after, rfl, rfl, rfl⟩ := ih rest
          refine ⟨l :: before, after, rfl, rfl, ?_⟩
          rw [Lexeme.flatten_cons, Position.after_append, Position.after_append]

end Token

namespace Lexeme

theorem Chain.reblank {l : Lexeme} {later : List Lexeme} {rest blanks : Text}
    (chain : Chain (l :: later) rest) (gaps : ∀ g ∈ blanks, isGap g = true) :
    Chain ({ l with blanks := blanks } :: later) rest := by
  cases chain with
  | cons _ starts form next => exact .cons gaps starts form next

theorem isBoundary_of_isGap {g : Glyph} (gap : isGap g = true) : Head.isBoundary g = true := by
  simp [Head.isBoundary, gap]

/-- A lexeme is read as before if blanks are put behind it, and behind these anything else. If there
were blanks already, nothing has to be put in between. -/
theorem succession_insert (kind : TokenKind) {blanks lead word rest : Text} (other : Text)
    (gaps : ∀ g ∈ blanks, isGap g = true) (leading : ∀ g ∈ lead, isGap g = true)
    (starts : ∀ g ∈ word.head?, isGap g = false) (spelled : word ≠ [])
    (apart : blanks ≠ [] ∨ lead ≠ []) :
    Head.Succession kind (blanks ++ (word ++ rest)) (blanks ++ (lead ++ other)) := by
  cases blanks with
  | cons g blanks =>
      refine .same_glyph kind _ _ ?_
      rintro rfl
      have gap := gaps _ List.mem_cons_self
      revert gap
      decide
  | nil =>
      obtain ⟨g, lead, rfl⟩ := List.exists_cons_of_ne_nil (apart.resolve_left (not_not_intro rfl))
      obtain ⟨first, word, rfl⟩ := List.exists_cons_of_ne_nil spelled
      refine .of_boundary kind _ _ ?_ (isBoundary_of_isGap (leading g List.mem_cons_self))
      rintro rfl
      have solid := starts _ rfl
      revert solid
      decide

/-- Words in front of a line feed are read as if they were alone, whatever stands on the next line. -/
theorem Chain.on_line {words : List Lexeme} {tail : Text} (chain : Chain words tail)
    (gaps : ∀ g ∈ tail, isGap g = true) (code : ∀ l ∈ words, l.kind ≠ .comment) (next : Text) :
    Chain words (tail ++ [.char '\n'] ++ next) := by
  rw [List.append_assoc]
  refine (chain.succeed fun last member => ?_).1
  cases tail with
  | nil => exact .boundary (code last (List.mem_of_getLast? member)) (by decide)
  | cons g tail =>
      refine .same_glyph _ _ _ ?_
      rintro rfl
      have gap := gaps _ List.mem_cons_self
      revert gap
      decide

/-- Words that are read as they are whatever follows the blanks behind them may be inserted in front of
a lexeme. The first one takes over the blanks that stood there. -/
theorem Chain.insert {before later more : List Lexeme} {l first : Lexeme} {blanks lead closing : Text}
    (chain : Chain (before ++ l :: later) blanks) (leading : ∀ g ∈ lead, isGap g = true)
    (apart : before = [] ∨ l.blanks ≠ [] ∨ lead ≠ [])
    (words : ∀ next, Chain (first :: more) (closing ++ next))
    (gaps : ∀ g ∈ closing, isGap g = true) :
    Chain (before ++ ({ first with blanks := l.blanks ++ (lead ++ first.blanks) } :: more ++
      { l with blanks := closing } :: later)) blanks := by
  obtain ⟨front, back⟩ := chain_append.1 chain
  have indent : ∀ g ∈ l.blanks, isGap g = true := by
    cases back with
    | cons blank _ _ _ => exact blank
  have moved := back.reblank gaps
  have middle : Chain ({ first with blanks := l.blanks ++ (lead ++ first.blanks) } :: more)
      (flatten ({ l with blanks := closing } :: later) ++ blanks) := by
    have alone := words (l.text ++ (flatten later ++ blanks))
    have opened : ∀ g ∈ first.blanks, isGap g = true := by
      cases alone with
      | cons blank _ _ _ => exact blank
    refine Chain.reblank (l := first) ?_ fun g member => ?_
    · simpa [flatten_cons] using alone
    · rcases List.mem_append.1 member with member | member
      · exact indent g member
      · rcases List.mem_append.1 member with member | member
        · exact leading g member
        · exact opened g member
  refine chain_append.2 ⟨?_, chain_append.2 ⟨middle, moved⟩⟩
  refine (front.succeed fun last member => ?_).1
  have starts : (∀ g ∈ l.text.head?, isGap g = false) ∧ l.text ≠ [] := by
    cases back with
    | cons _ starts form _ => exact ⟨starts, form_text_ne_nil form⟩
  have spaced : l.blanks ≠ [] ∨ lead ≠ [] := apart.resolve_left (by
    rintro rfl
    cases member)
  simpa [flatten_append, flatten_cons] using succession_insert last.kind
    (first.blanks ++ (first.text ++ (flatten more ++
      (closing ++ (l.text ++ (flatten later ++ blanks)))))) indent leading
    starts.1 starts.2 spaced

end Lexeme

namespace Token

def insertBefore (text : Text) (t : Token) (inserted : Text) : Text :=
  text.take t.span.start.offset ++ (inserted ++ text.drop t.span.start.offset)

theorem tokenize_split {file text : Text} {front back : List Token} {t : Token}
    (read : tokenize file text = .ok (front ++ t :: back)) (inside : t.kind ≠ .eof) :
    ∃ before l later blanks, text = Lexeme.flatten (before ++ l :: later) ++ blanks ∧
      Lexeme.Chain (before ++ l :: later) blanks ∧ (∀ g ∈ blanks, Lexeme.isGap g = true) ∧
      front = place file .first before ∧
      t :: back = place file (Position.first.after (Lexeme.flatten before))
        (l :: (later ++ [⟨blanks, .eof, []⟩])) := by
  unfold tokenize at read
  split at read
  · rename_i lexemes cut
    obtain ⟨before, after, rfl, begins, rest⟩ := place_split (Except.ok.inj read)
    obtain ⟨chain, blanks, same, whole, chained, gaps⟩ := Lexeme.ofText_eq_ok_iff.1 cut
    rcases List.eq_nil_or_concat after with rfl | ⟨after, last, rfl⟩
    · cases rest
    · rw [List.concat_eq_append, ← List.append_assoc] at same
      obtain ⟨rfl, ended⟩ := List.append_inj' same rfl
      cases ended
      cases after with
      | nil =>
          obtain ⟨rfl, _⟩ := List.cons.inj rest
          exact absurd rfl inside
      | cons l later =>
          rw [List.concat_eq_append] at rest
          exact ⟨before, l, later, blanks, whole, chained, gaps, begins, rest⟩
  · cases read

theorem last_mem_place (file : Text) (p : Position) (before : List Lexeme) (last : Lexeme) :
    (⟨last.kind, last.text, ⟨file, (p.after (Lexeme.flatten before)).after last.blanks,
      p.after (Lexeme.flatten (before ++ [last]))⟩⟩ : Token) ∈ place file p (before ++ [last]) := by
  rw [place_append, Lexeme.flatten_append]
  refine List.mem_append_right _ ?_
  simp [place, Lexeme.flatten]

/-- Inserting words keeps all tokens, if blanks separate the words from the token in front of them and
what stands behind them cannot change how they are read. -/
theorem tokenize_insert {file text lead closing : Text} {front back : List Token} {t : Token}
    {words : List Lexeme} (read : tokenize file text = .ok (front ++ t :: back))
    (inside : t.kind ≠ .eof) (leading : ∀ g ∈ lead, Lexeme.isGap g = true)
    (apart : lead ≠ [] ∨ ∀ u ∈ front, u.span.stop.offset < t.span.start.offset)
    (chain : ∀ next, Lexeme.Chain words (closing ++ next)) (present : words ≠ [])
    (gaps : ∀ g ∈ closing, Lexeme.isGap g = true) :
    tokenize file (insertBefore text t (lead ++ (Lexeme.flatten words ++ closing))) =
      .ok (front ++ (place file (t.span.start.after lead) words ++
        (t :: back).map (relocate (.rebase t.span.start
          (t.span.start.after (lead ++ (Lexeme.flatten words ++ closing))))))) := by
  obtain ⟨before, l, later, blanks, rfl, chained, behind, rfl, placed⟩ := tokenize_split read inside
  obtain ⟨ahead, after⟩ := Lexeme.chain_append.1 chained
  obtain ⟨first, more, rfl⟩ := List.exists_cons_of_ne_nil present
  have start : t.span.start = Position.first.after (Lexeme.flatten before ++ l.blanks) := by
    rw [(List.cons.inj placed).1, Position.after_append]
  have offset : t.span.start.offset = (Lexeme.flatten before ++ l.blanks).length := by
    rw [start, Position.after_offset]
    exact Nat.zero_add _
  -- Without a gap the first new word would grow together with the lexeme in front of it.
  have spaced : before = [] ∨ l.blanks ≠ [] ∨ lead ≠ [] := by
    rcases apart with led | earlier
    · exact .inr (.inr led)
    · rcases List.eq_nil_or_concat before with rfl | ⟨others, last, rfl⟩
      · exact .inl rfl
      · rw [List.concat_eq_append] at earlier offset
        have ends := earlier _ (last_mem_place file .first others last)
        rw [offset, List.length_append, Position.after_offset] at ends
        refine .inr (.inl (List.ne_nil_of_length_pos ?_))
        have zero : Position.first.offset = 0 := rfl
        omega
  have inserted := chained.insert leading spaced chain gaps
  have cut := Lexeme.ofText_chain inserted (Lexeme.ofText_gaps behind)
  have whole : insertBefore (Lexeme.flatten (before ++ l :: later) ++ blanks) t
      (lead ++ (Lexeme.flatten (first :: more) ++ closing)) =
      Lexeme.flatten (before ++ ({ first with blanks := l.blanks ++ (lead ++ first.blanks) } :: more ++
        { l with blanks := closing } :: later)) ++ blanks := by
    have parts : Lexeme.flatten (before ++ l :: later) ++ blanks =
        Lexeme.flatten before ++ l.blanks ++ (l.text ++ (Lexeme.flatten later ++ blanks)) := by
      simp [Lexeme.flatten_append, Lexeme.flatten_cons]
    rw [insertBefore, offset, parts, List.take_left, List.drop_left]
    simp [Lexeme.flatten_append, Lexeme.flatten_cons]
  rw [tokenize, whole, cut, placed, start]
  refine congrArg Except.ok ?_
  have middle : place file (Position.first.after (Lexeme.flatten before))
      ({ first with blanks := l.blanks ++ (lead ++ first.blanks) } :: more) =
        place file ((Position.first.after (Lexeme.flatten before ++ l.blanks)).after lead)
          (first :: more) := by
    simp [place]
  have moved := place_rebase file (Position.first.after (Lexeme.flatten before ++ l.blanks))
    ((Position.first.after (Lexeme.flatten before ++ l.blanks)).after
      (lead ++ (Lexeme.flatten (first :: more) ++ closing))) []
      ({ l with blanks := [] } :: (later ++ [⟨blanks, .eof, []⟩]))
  rw [List.append_assoc, place_append, List.append_assoc, place_append, middle]
  refine congrArg (place file .first before ++ ·) (congrArg (_ ++ ·) ?_)
  simpa [place, Lexeme.flatten_cons] using moved

end Token

end FormatLint
