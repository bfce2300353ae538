import FormatLint.Proofs.Edit.Splice
import FormatLint.Proofs.Token.Laid
import FormatLint.Proofs.Token.Scan

/-!
Parts of a text that edits turn into other text of known words. A part is judged together with what
follows it before and after, since a change behind a lexeme may reach into it.
-/

namespace FormatLint

/-- The edits turn the first text into the second one, which is read as the words if `rest` follows
it. -/
structure Rewrites (o : Nat) (before : Text) (edits : List Edit) (after : Text) (words : List Word)
    (rest : Text) : Prop where
  splices : Edit.Splices o before edits after
  scan : Scan after words rest

/-- A rewriting that lexemes in front of it do not notice, where `rest` followed the first text and
`rest'` follows the second one. -/
structure Revises (o : Nat) (before : Text) (edits : List Edit) (after : Text) (words : List Word)
    (rest rest' : Text) : Prop extends Rewrites o before edits after words rest' where
  follows : ∀ previous, Head.Succession previous (before ++ rest) (after ++ rest')

namespace Rewrites

theorem append {o : Nat} {before₁ before₂ after₁ after₂ rest : Text}
    {edits₁ edits₂ : List Edit} {words₁ words₂ : List Word}
    (first : Rewrites o before₁ edits₁ after₁ words₁ (after₂ ++ rest))
    (second : Rewrites (o + before₁.length) before₂ edits₂ after₂ words₂ rest) :
    Rewrites o (before₁ ++ before₂) (edits₁ ++ edits₂) (after₁ ++ after₂) (words₁ ++ words₂)
      rest :=
  ⟨first.splices.append second.splices, first.scan.append second.scan⟩

theorem gaps {o : Nat} {blanks before after rest : Text} {edits : List Edit} {words : List Word}
    (blank : ∀ g ∈ blanks, Lexeme.isGap g = true)
    (rewrites : Rewrites (o + blanks.length) before edits after words rest) :
    Rewrites o (blanks ++ before) edits (blanks ++ after) words rest :=
  ⟨.keep rewrites.splices, rewrites.scan.gaps blank⟩

theorem replace {o : Nat} (old : Text) {new rest : Text} {words : List Word}
    (scan : Scan new words rest) :
    Rewrites o old [⟨o, o + old.length, new⟩] new words rest :=
  ⟨.replace_all old new, scan⟩

end Rewrites

namespace Revises

theorem nil (o : Nat) (rest : Text) : Revises o [] [] [] [] rest rest :=
  ⟨⟨.nil, .nil⟩, fun previous => .refl previous rest⟩

/-- What stands behind a revised text may be rewritten as its change allows. -/
theorem append {o : Nat} {before₁ before₂ after₁ after₂ rest rest' : Text}
    {edits₁ edits₂ : List Edit} {words₁ words₂ : List Word}
    (first : Revises o before₁ edits₁ after₁ words₁ (before₂ ++ rest) (after₂ ++ rest'))
    (second : Rewrites (o + before₁.length) before₂ edits₂ after₂ words₂ rest') :
    Revises o (before₁ ++ before₂) (edits₁ ++ edits₂) (after₁ ++ after₂) (words₁ ++ words₂) rest
      rest' := by
  refine ⟨first.toRewrites.append second, ?_⟩
  intro previous
  rw [List.append_assoc, List.append_assoc]
  exact first.follows previous

theorem gaps {o : Nat} {blanks before after rest rest' : Text} {edits : List Edit}
    {words : List Word} (blank : ∀ g ∈ blanks, Lexeme.isGap g = true)
    (revises : Revises (o + blanks.length) before edits after words rest rest') :
    Revises o (blanks ++ before) edits (blanks ++ after) words rest rest' := by
  refine ⟨revises.toRewrites.gaps blank, ?_⟩
  intro previous
  rw [List.append_assoc, List.append_assoc]
  exact Lexeme.gaps_follow blank (revises.follows previous)

/-- A lexeme stays what it is if what follows it may stand behind it. -/
theorem keep {kind : TokenKind} {spelling rest rest' : Text} (o : Nat)
    (begins : ∀ g ∈ spelling.head?, Lexeme.isGap g = false)
    (form : Head.Form kind spelling rest) (next : Head.Succession kind rest rest') :
    Revises o spelling [] spelling [(kind, spelling)] rest rest' :=
  ⟨⟨.keep_all o spelling, .single begins (form.succeed next)⟩,
    fun previous => .behind form next previous⟩

/-- Tokens stay what they are in front of a text that may stand behind the last of them. -/
theorem behind {gap : Token → Text} {o : Nat} {kept : List Token} {before after rest rest' : Text}
    {edits : List Edit} {words : List Word} (laid : Token.Laid gap o kept (before ++ rest))
    (nonempty : kept ≠ [])
    (next : ∀ last ∈ kept.getLast?, Head.Succession last.kind (before ++ rest) (after ++ rest'))
    (rewrites : Rewrites (o + (Token.textOf gap kept).length) before edits after words rest') :
    Revises o (Token.textOf gap kept ++ before) edits (Token.textOf gap kept ++ after)
      (kept.map Token.word ++ words) rest rest' := by
  induction kept generalizing o with
  | nil => exact absurd rfl nonempty
  | cons t later ih =>
      cases laid with
      | cons blank begins start stop form laid =>
          have offset : o + (Token.textOf gap (t :: later)).length =
              t.span.start.offset + t.lexeme.length + (Token.textOf gap later).length := by
            rw [Token.textOf_cons]
            simp only [List.length_append]
            omega
          rw [offset] at rewrites
          have tail : Rewrites (o + (gap t).length + t.lexeme.length)
              (Token.textOf gap later ++ before) edits (Token.textOf gap later ++ after)
              (later.map Token.word ++ words) rest' ∧ Head.Succession t.kind
                (Token.textOf gap later ++ before ++ rest)
                (Token.textOf gap later ++ after ++ rest') := by
            rw [← start]
            cases later with
            | nil => exact ⟨rewrites, next t rfl⟩
            | cons other later =>
                rw [List.getLast?_cons_cons] at next
                have inner := ih laid (by simp) next (by rw [stop]; exact rewrites)
                rw [stop] at inner
                exact ⟨inner.toRewrites, inner.follows t.kind⟩
          rw [← List.append_assoc] at form
          have whole := gaps blank ((keep _ begins form tail.2).append tail.1)
          simpa [Token.textOf_cons, Token.word] using whole

end Revises

/-- A text to insert, and the words that it is read as. -/
structure Insertion where
  text : Text
  words : List Word

namespace Insertion

/-- The text is set apart by its first glyph, and is read as the words wherever it stands. -/
structure Sound (i : Insertion) : Prop where
  bounds : ∃ g later, i.text = g :: later ∧ Head.isBoundary g = true
  scan : ∀ rest, Scan i.text i.words rest

/-- The insertions are made one behind the other. -/
def textOf (insertions : List Insertion) : Text := insertions.flatMap (·.text)

def wordsOf (insertions : List Insertion) : List Word := insertions.flatMap (·.words)

def editsAt (o : Nat) (insertions : List Insertion) : List Edit :=
  insertions.map fun i => .insertion o i.text

theorem splices (o : Nat) (insertions : List Insertion) :
    Edit.Splices o [] (editsAt o insertions) (textOf insertions) := by
  induction insertions with
  | nil => exact .nil
  | cons i later ih => exact (Edit.Splices.insert o i.text).append ih

theorem scan_textOf {insertions : List Insertion} (sound : ∀ i ∈ insertions, i.Sound)
    (rest : Text) : Scan (textOf insertions) (wordsOf insertions) rest := by
  induction insertions with
  | nil => exact .nil
  | cons i later ih =>
      have behind := ih fun other member => sound other (List.mem_cons_of_mem i member)
      exact ((sound i List.mem_cons_self).scan _).append behind

theorem textOf_bounds {insertions : List Insertion} (sound : ∀ i ∈ insertions, i.Sound)
    (nonempty : insertions ≠ []) :
    ∃ g later, textOf insertions = g :: later ∧ Head.isBoundary g = true := by
  cases insertions with
  | nil => exact absurd rfl nonempty
  | cons i insertions =>
      obtain ⟨g, later, text, bounds⟩ := (sound i List.mem_cons_self).bounds
      exact ⟨g, later ++ textOf insertions, by simp [textOf, text], bounds⟩

/-- A lexeme is read as before if insertions are made behind it. -/
theorem succeed {kind : TokenKind} {rest rest' : Text} {insertions : List Insertion}
    (sound : ∀ i ∈ insertions, i.Sound) (code : insertions ≠ [] → kind ≠ .comment)
    (next : Head.Succession kind rest rest') :
    Head.Succession kind rest (textOf insertions ++ rest') := by
  by_cases empty : insertions = []
  · rw [empty]
    exact next
  · obtain ⟨g, later, text, bounds⟩ := textOf_bounds sound empty
    rw [text]
    exact .boundary (code empty) bounds

end Insertion

namespace Revises

/-- Insertions in front of a lexeme and behind it. -/
theorem around {kind : TokenKind} {spelling rest rest' : Text} (o : Nat)
    (begins : ∀ g ∈ spelling.head?, Lexeme.isGap g = false)
    (form : Head.Form kind spelling rest) {front back : List Insertion}
    (soundFront : ∀ i ∈ front, i.Sound) (soundBack : ∀ i ∈ back, i.Sound)
    (code : back ≠ [] → kind ≠ .comment) (next : Head.Succession kind rest rest') :
    Revises o spelling
      (Insertion.editsAt o front ++ Insertion.editsAt (o + spelling.length) back)
      (Insertion.textOf front ++ (spelling ++ Insertion.textOf back))
      (Insertion.wordsOf front ++ (kind, spelling) :: Insertion.wordsOf back) rest rest' := by
  have succession := Insertion.succeed soundBack code next
  refine ⟨⟨?_, ?_⟩, ?_⟩
  · have kept := (Edit.Splices.keep_all o spelling).append
      (Insertion.splices (o + spelling.length) back)
    rw [List.append_nil] at kept
    exact (Insertion.splices o front).append kept
  · refine (Insertion.scan_textOf soundFront _).append ?_
    refine .word begins ?_ (Insertion.scan_textOf soundBack rest')
    exact form.succeed succession
  · intro previous
    have whole := Head.Succession.behind form succession previous
    rw [List.append_assoc, List.append_assoc]
    by_cases empty : front = []
    · rw [empty]
      exact whole
    · obtain ⟨g, later, text, bounds⟩ := Insertion.textOf_bounds soundFront empty
      have nonempty := Lexeme.form_text_ne_nil form
      cases spelling with
      | nil => exact absurd rfl nonempty
      | cons first spelling =>
          rw [text]
          refine .of_boundary previous _ _ ?_ bounds
          rintro rfl
          exact absurd (begins _ rfl) (by decide)

end Revises

namespace Insertion

def revisedText (gap : Token → Text) (front back : Token → List Insertion) (tokens : List Token) :
    Text :=
  tokens.flatMap fun t => gap t ++ (textOf (front t) ++ (t.lexeme ++ textOf (back t)))

def revisedWords (front back : Token → List Insertion) (tokens : List Token) : List Word :=
  tokens.flatMap fun t => wordsOf (front t) ++ t.word :: wordsOf (back t)

def revisedEdits (front back : Token → List Insertion) (tokens : List Token) : List Edit :=
  tokens.flatMap fun t =>
    editsAt t.span.start.offset (front t) ++ editsAt t.span.stop.offset (back t)

/-- Insertions around tokens change no token, as long as none is made behind a comment. -/
theorem revises {gap : Token → Text} {o : Nat} {tokens : List Token} {rest : Text}
    (laid : Token.Laid gap o tokens rest) {front back : Token → List Insertion}
    (soundFront : ∀ t, ∀ i ∈ front t, i.Sound) (soundBack : ∀ t, ∀ i ∈ back t, i.Sound)
    (code : ∀ t ∈ tokens, back t ≠ [] → t.kind ≠ .comment) :
    Revises o (Token.textOf gap tokens) (revisedEdits front back tokens)
      (revisedText gap front back tokens) (revisedWords front back tokens) rest rest := by
  induction laid with
  | nil => exact .nil _ _
  | @cons o t later rest blank begins start stop form next ih =>
      have behind := ih fun other member => code other (List.mem_cons_of_mem t member)
      have here := Revises.around t.span.start.offset begins form (soundFront t) (soundBack t)
        (code t List.mem_cons_self) (behind.follows t.kind)
      rw [← stop] at here
      have inner := here.append (by rw [← stop]; exact behind.toRewrites)
      have whole := Revises.gaps blank (by rw [← start]; exact inner)
      simpa [revisedText, revisedEdits, revisedWords, Token.textOf_cons, Token.word] using whole

theorem revisedEdits_sorted {tokens : List Token} (ordered : Token.Ordered tokens)
    (front back : Token → List Insertion) :
    (revisedEdits front back tokens).Pairwise fun first second => first.start ≤ second.start := by
  have places (t : Token) : ∀ e ∈ editsAt t.span.start.offset (front t) ++
      editsAt t.span.stop.offset (back t),
      e.start = t.span.start.offset ∨ e.start = t.span.stop.offset := by
    intro e member
    simp only [editsAt, List.mem_append, List.mem_map] at member
    rcases member with ⟨i, _, rfl⟩ | ⟨i, _, rfl⟩
    · exact .inl rfl
    · exact .inr rfl
  have same (o : Nat) (insertions : List Insertion) :
      (editsAt o insertions).Pairwise fun first second => first.start ≤ second.start :=
    List.pairwise_map.2 (List.pairwise_of_forall fun _ _ => Nat.le_refl o)
  refine List.pairwise_flatMap.2 ⟨?_, ?_⟩
  · intro t member
    refine List.pairwise_append.2 ⟨same _ _, same _ _, ?_⟩
    intro first front second back
    obtain ⟨i, _, rfl⟩ := List.mem_map.1 front
    obtain ⟨j, _, rfl⟩ := List.mem_map.1 back
    exact Nat.le_of_lt (ordered.nonempty t member)
  · refine ordered.pairwise.imp_of_mem ?_
    intro t other front back order first member second later
    have positive := ordered.nonempty t front
    have longer := ordered.nonempty other back
    rcases places t first member with start | start <;>
      rcases places other second later with stop | stop <;> omega

end Insertion

end FormatLint
