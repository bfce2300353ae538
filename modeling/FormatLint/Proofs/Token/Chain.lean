import FormatLint.Proofs.Token.Succession
import FormatLint.Token.Stream

/-!
Lexemes that are read one after the other. `Lexeme.Chain` judges a list of lexemes together with the
text behind it, so chains can be put together and one can stand in another's place;
`Lexeme.ofText_eq_ok_iff` says that cutting a text yields exactly the chain that spells it.
-/

namespace FormatLint.Lexeme

theorem flatten_append (before after : List Lexeme) :
    flatten (before ++ after) = flatten before ++ flatten after := by
  simp [flatten]

/-- The lexemes are read one after the other from a text that goes on with `rest`. -/
inductive Chain : List Lexeme → Text → Prop
  | nil {rest : Text} : Chain [] rest
  | cons {l : Lexeme} {later : List Lexeme} {rest : Text}
      (blank : ∀ g ∈ l.blanks, isGap g = true) (starts : ∀ g ∈ l.text.head?, isGap g = false)
      (form : Head.Form l.kind l.text (flatten later ++ rest)) (next : Chain later rest) :
      Chain (l :: later) rest

theorem chain_append {before after : List Lexeme} {rest : Text} :
    Chain (before ++ after) rest ↔ Chain before (flatten after ++ rest) ∧ Chain after rest := by
  induction before with
  | nil => exact ⟨fun chain => ⟨.nil, chain⟩, fun chains => chains.2⟩
  | cons l later ih =>
      constructor
      · intro chain
        cases chain with
        | cons blank starts form next =>
            obtain ⟨front, back⟩ := ih.1 next
            change Head.Form _ _ (flatten (later ++ after) ++ rest) at form
            rw [flatten_append, List.append_assoc] at form
            exact ⟨.cons blank starts form front, back⟩
      · rintro ⟨front, back⟩
        cases front with
        | cons blank starts form next =>
            refine .cons blank starts ?_ (ih.2 ⟨next, back⟩)
            change Head.Form _ _ (flatten (later ++ after) ++ rest)
            rw [flatten_append, List.append_assoc]
            exact form

theorem form_text_ne_nil {kind : TokenKind} {word rest : Text}
    (form : Head.Form kind word rest) : word ≠ [] :=
  (Head.read_lexeme (Head.read_of_form form)).2

theorem Chain.kind_ne_eof {lexemes : List Lexeme} {rest : Text} (chain : Chain lexemes rest) :
    ∀ l ∈ lexemes, l.kind ≠ .eof := by
  induction chain with
  | nil => simp
  | @cons l later rest _ _ form _ ih =>
      intro other member
      rcases List.mem_cons.1 member with rfl | member
      · exact form.kind_ne_eof
      · exact ih other member

theorem starts_nil : ∀ g ∈ ([] : Text).head?, isGap g = false := by simp

theorem gaps_split {blanks rest : Text} (blank : ∀ g ∈ blanks, isGap g = true)
    (starts : ∀ g ∈ rest.head?, isGap g = false) :
    (blanks ++ rest).takeWhile isGap = blanks ∧ (blanks ++ rest).dropWhile isGap = rest := by
  rw [List.takeWhile_append_of_pos blank, List.dropWhile_append_of_pos blank]
  cases rest with
  | nil => simp
  | cons g later => simp [starts g rfl]

theorem gaps_nil : ∀ g ∈ ([] : Text), isGap g = true := by simp

theorem ofText_gaps {blanks : Text} (blank : ∀ g ∈ blanks, isGap g = true) :
    ofText blanks = .ok [⟨blanks, .eof, []⟩] := by
  obtain ⟨front, back⟩ := gaps_split blank starts_nil
  rw [List.append_nil] at front back
  have finished : Head.read (blanks.dropWhile isGap) = .finished := by
    rw [back]
    rfl
  unfold ofText
  split
  · rw [front]
  · rename_i unclosed
    rw [finished] at unclosed
    cases unclosed
  · rename_i found
    rw [finished] at found
    cases found

theorem ofText_lexeme {blanks word rest : Text} {kind : TokenKind} {after : List Lexeme}
    (blank : ∀ g ∈ blanks, isGap g = true) (starts : ∀ g ∈ word.head?, isGap g = false)
    (form : Head.Form kind word rest) (read : ofText rest = .ok after) :
    ofText (blanks ++ (word ++ rest)) = .ok (⟨blanks, kind, word⟩ :: after) := by
  have first : ∀ g ∈ (word ++ rest).head?, isGap g = false := by
    cases word with
    | nil => exact absurd rfl (form_text_ne_nil form)
    | cons g later => exact starts
  obtain ⟨front, back⟩ := gaps_split blank first
  have lexeme := Head.read_of_form form
  rw [← back] at lexeme
  unfold ofText
  split
  · rename_i finished
    rw [lexeme] at finished
    cases finished
  · rename_i unclosed
    rw [lexeme] at unclosed
    cases unclosed
  · rename_i found
    rw [lexeme] at found
    cases found
    rw [read, front]

theorem ofText_chain {lexemes after : List Lexeme} {rest : Text} (chain : Chain lexemes rest)
    (read : ofText rest = .ok after) : ofText (flatten lexemes ++ rest) = .ok (lexemes ++ after) := by
  induction chain with
  | nil => exact read
  | cons blank starts form next ih =>
      rw [flatten_cons, List.append_assoc, List.append_assoc]
      exact ofText_lexeme blank starts form (ih read)

theorem ofText_words {words : List Lexeme} (chain : Chain words []) :
    ofText (flatten words) = .ok (words ++ [⟨[], .eof, []⟩]) := by
  have cut := ofText_chain chain (ofText_gaps gaps_nil)
  rwa [List.append_nil] at cut

theorem tokenize_words {words : List Lexeme} (chain : Chain words []) (file : Text) :
    Token.tokenize file (flatten words) =
      .ok (Token.place file .first (words ++ [⟨[], .eof, []⟩])) := by
  rw [Token.tokenize, ofText_words chain]

/-- The first lexeme of a text can stand in front of a chain that begins the rest. -/
theorem chain_of_read {text word rest : Text} {kind : TokenKind}
    (read : Head.read (text.dropWhile isGap) = .lexeme kind word rest) :
    text = text.takeWhile isGap ++ (word ++ rest) ∧
      ∀ {later : List Lexeme} {after : Text}, rest = flatten later ++ after → Chain later after →
        Chain (⟨text.takeWhile isGap, kind, word⟩ :: later) after := by
  have whole := (Head.read_lexeme read).1
  refine ⟨?_, ?_⟩
  · rw [← whole]
    exact List.takeWhile_append_dropWhile.symm
  · rintro later after rfl chain
    refine .cons ?_ ?_ (Head.form_of_read read) chain
    · exact fun g member => List.all_eq_true.1 List.all_takeWhile g member
    · intro g first
      have stopped := List.head?_dropWhile_not isGap text
      cases word with
      | nil => cases first
      | cons other more =>
          rw [whole] at stopped
          cases Option.some.inj first
          simpa using stopped

/-- The lexemes of a text are the chain that spells it, and the blanks behind the chain. -/
theorem ofText_eq_ok_iff {text : Text} {lexemes : List Lexeme} :
    ofText text = .ok lexemes ↔ ∃ chain blanks, lexemes = chain ++ [⟨blanks, .eof, []⟩] ∧
      text = flatten chain ++ blanks ∧ Chain chain blanks ∧ ∀ g ∈ blanks, isGap g = true := by
  constructor
  · intro read
    fun_induction ofText text generalizing lexemes with
    | case1 text blanks =>
        rename_i finished
        cases read
        have exhausted := Head.read_eq_finished.1 finished
        have whole := List.takeWhile_append_dropWhile (p := isGap) (l := text)
        rw [exhausted, List.append_nil] at whole
        refine ⟨[], blanks, rfl, whole.symm, .nil, ?_⟩
        exact fun g member => List.all_eq_true.1 List.all_takeWhile g member
    | case2 => cases read
    | case3 text blanks kind word rest found later readLater =>
        rename_i ih
        cases read
        obtain ⟨chain, tail, rfl, rfl, chained, blank⟩ := ih readLater
        obtain ⟨whole, front⟩ := chain_of_read found
        refine ⟨⟨blanks, kind, word⟩ :: chain, tail, rfl, ?_, front rfl chained, blank⟩
        rw [flatten_cons, List.append_assoc, List.append_assoc]
        exact whole
    | case4 => cases read
  · rintro ⟨chain, blanks, rfl, rfl, chained, blank⟩
    exact ofText_chain chained (ofText_gaps blank)

theorem isGap_feed {blanks : Text} (blank : ∀ g ∈ blanks, isGap g = true) :
    ∀ g ∈ blanks ++ [.char '\n'], isGap g = true := by
  refine List.forall_mem_append.2 ⟨blank, ?_⟩
  rw [List.forall_mem_singleton]
  decide

/-- Gaps and what follows them may be succeeded if what follows them may. -/
theorem gaps_follow {blanks before after : Text} (blank : ∀ g ∈ blanks, isGap g = true)
    {previous : TokenKind} (next : Head.Succession previous before after) :
    Head.Succession previous (blanks ++ before) (blanks ++ after) := by
  cases blanks with
  | nil => exact next
  | cons g blanks =>
      refine Head.Succession.same_glyph previous _ _ ?_
      rintro rfl
      exact absurd (blank _ List.mem_cons_self) (by decide)

/-- A chain is read as before if what follows it is succeeded behind its last lexeme, and then the
chain itself may stand where it stood. -/
theorem Chain.succeed {lexemes : List Lexeme} {before after : Text}
    (chain : Chain lexemes before)
    (next : ∀ last ∈ lexemes.getLast?, Head.Succession last.kind before after) :
    Chain lexemes after ∧ (lexemes ≠ [] → ∀ previous, Head.Succession previous
      (flatten lexemes ++ before) (flatten lexemes ++ after)) := by
  induction chain with
  | nil => exact ⟨.nil, fun nonempty => absurd rfl nonempty⟩
  | @cons l later before blank starts form chained ih =>
      have follows : Head.Succession l.kind (flatten later ++ before) (flatten later ++ after) := by
        cases later with
        | nil => exact next l rfl
        | cons other later =>
            rw [List.getLast?_cons_cons] at next
            exact (ih next).2 (by simp) l.kind
      have rest : Chain later after := by
        cases later with
        | nil => exact .nil
        | cons other later =>
            rw [List.getLast?_cons_cons] at next
            exact (ih next).1
      refine ⟨.cons blank starts (form.succeed follows) rest, fun _ previous => ?_⟩
      rw [flatten_cons, List.append_assoc, List.append_assoc, List.append_assoc,
        List.append_assoc]
      exact gaps_follow blank (Head.Succession.behind form follows previous)

end FormatLint.Lexeme
