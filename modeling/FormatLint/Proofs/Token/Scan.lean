import FormatLint.Proofs.Token.Chain

/-!
The words that a part of a text is read as. `Scan` judges a part together with what follows it, so
that parts can be put together; `Scan.ofText` says which words the whole is cut into.
-/

namespace FormatLint

/-- A token without its place. -/
abbrev Word := TokenKind × Text

def Token.word (t : Token) : Word := (t.kind, t.lexeme)

def Lexeme.word (l : Lexeme) : Word := (l.kind, l.text)

/-- The text is read as the words, gaps apart, if `rest` follows it. -/
inductive Scan : Text → List Word → Text → Prop
  | nil {rest : Text} : Scan [] [] rest
  | gap {g : Glyph} {t rest : Text} {words : List Word} (blank : Lexeme.isGap g = true)
      (later : Scan t words rest) : Scan (g :: t) words rest
  | word {kind : TokenKind} {spelling t rest : Text} {words : List Word}
      (starts : ∀ g ∈ spelling.head?, Lexeme.isGap g = false)
      (form : Head.Form kind spelling (t ++ rest)) (later : Scan t words rest) :
      Scan (spelling ++ t) ((kind, spelling) :: words) rest

namespace Scan

theorem append {first second rest : Text} {words₁ words₂ : List Word}
    (front : Scan first words₁ (second ++ rest)) (back : Scan second words₂ rest) :
    Scan (first ++ second) (words₁ ++ words₂) rest := by
  generalize following : second ++ rest = tail at front
  induction front with
  | nil => exact back
  | gap blank _ ih => exact .gap blank (ih following)
  | word starts form _ ih =>
      rw [← following, ← List.append_assoc] at form
      rw [List.append_assoc]
      exact .word starts form (ih following)

theorem gaps {blanks t rest : Text} {words : List Word}
    (blank : ∀ g ∈ blanks, Lexeme.isGap g = true) (later : Scan t words rest) :
    Scan (blanks ++ t) words rest := by
  induction blanks with
  | nil => exact later
  | cons g blanks ih =>
      exact .gap (blank g List.mem_cons_self)
        (ih fun other member => blank other (List.mem_cons_of_mem g member))

theorem single {kind : TokenKind} {spelling rest : Text}
    (starts : ∀ g ∈ spelling.head?, Lexeme.isGap g = false)
    (form : Head.Form kind spelling rest) : Scan spelling [(kind, spelling)] rest := by
  have whole := Scan.word (t := []) starts form .nil
  rwa [List.append_nil] at whole

theorem of_chain {lexemes : List Lexeme} {rest : Text} (chain : Lexeme.Chain lexemes rest) :
    Scan (Lexeme.flatten lexemes) (lexemes.map Lexeme.word) rest := by
  induction chain with
  | nil => exact .nil
  | cons blank starts form _ ih =>
      rw [Lexeme.flatten_cons, List.append_assoc]
      exact gaps blank (.word starts form ih)

theorem ofText_gap {g : Glyph} {t : Text} {lexemes : List Lexeme}
    (blank : Lexeme.isGap g = true) (read : Lexeme.ofText t = .ok lexemes) :
    ∃ others, Lexeme.ofText (g :: t) = .ok others ∧
      others.map Lexeme.word = lexemes.map Lexeme.word := by
  obtain ⟨chain, blanks, rfl, rfl, chained, gapped⟩ := Lexeme.ofText_eq_ok_iff.1 read
  cases chained with
  | nil =>
      refine ⟨[⟨g :: blanks, .eof, []⟩], Lexeme.ofText_gaps ?_, rfl⟩
      intro other member
      rcases List.mem_cons.1 member with rfl | member
      · exact blank
      · exact gapped other member
  | @cons l later _ isBlank starts form next =>
      have longer : ∀ other ∈ g :: l.blanks, Lexeme.isGap other = true := by
        intro other member
        rcases List.mem_cons.1 member with rfl | member
        · exact blank
        · exact isBlank other member
      have chain := Lexeme.Chain.cons (l := ⟨g :: l.blanks, l.kind, l.text⟩) longer starts form next
      exact ⟨_, Lexeme.ofText_chain chain (Lexeme.ofText_gaps gapped), rfl⟩

/-- The words of a part come before those of what follows it. -/
theorem ofText {t rest : Text} {words : List Word} {after : List Lexeme}
    (scan : Scan t words rest) (read : Lexeme.ofText rest = .ok after) :
    ∃ lexemes, Lexeme.ofText (t ++ rest) = .ok lexemes ∧
      lexemes.map Lexeme.word = words ++ after.map Lexeme.word := by
  induction scan with
  | nil => exact ⟨after, read, rfl⟩
  | gap blank _ ih =>
      obtain ⟨lexemes, cut, same⟩ := ih read
      obtain ⟨others, whole, equal⟩ := ofText_gap blank cut
      exact ⟨others, whole, equal.trans same⟩
  | word starts form _ ih =>
      obtain ⟨lexemes, cut, same⟩ := ih read
      have whole := Lexeme.ofText_lexeme Lexeme.gaps_nil starts form cut
      rw [List.nil_append, ← List.append_assoc] at whole
      exact ⟨_, whole, by simp [same, Lexeme.word]⟩

/-- A file of which all but the gap at its end is read as the words. -/
theorem tokenize {t blanks : Text} {words : List Word} (scan : Scan t words blanks) (file : Text)
    (blank : ∀ g ∈ blanks, Lexeme.isGap g = true) :
    ∃ tokens, Token.tokenize file (t ++ blanks) = .ok tokens ∧
      tokens.map Token.word = words ++ [(.eof, [])] := by
  obtain ⟨lexemes, cut, same⟩ := scan.ofText (Lexeme.ofText_gaps blank)
  refine ⟨Token.place file .first lexemes, by rw [Token.tokenize, cut], ?_⟩
  exact (Token.place_lexemes file .first lexemes).trans same

end Scan

end FormatLint
