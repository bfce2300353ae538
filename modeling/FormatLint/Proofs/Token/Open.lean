import FormatLint.Proofs.Token.Chain

/-!
Forms that are never closed. `Head.read_iff_open` says which texts begin with one, and
`Lexeme.ofText_chain_append` that what stands in front of it is read as if it were closed.
-/

namespace FormatLint

namespace Head

/-- A form that is never closed, the text that begins with it, and its body. -/
inductive Open : Enclosure → Text → Text → Prop
  | blockComment {rest : Text} (never : Head.blockComment rest = none) :
      Open .blockComment (.char '/' :: .char '*' :: rest) (.char '/' :: .char '*' :: rest)
  | literal {quote : Quote} {encoding text : Text}
      (encoded : encoding = [] ∨ encoding ∈ quote.encodings)
      (never : (literalBody quote text).2.head? ≠ some quote.mark) :
      Open (.literal quote) (encoding ++ quote.mark :: text)
        (encoding ++ quote.mark :: (literalBody quote text).1)

theorem literal_of_open {quote : Quote} {text : Text} (encoding : Text)
    (never : (literalBody quote text).2.head? ≠ some quote.mark) :
    literal quote encoding text =
      .unclosed (.literal quote) (encoding ++ quote.mark :: (literalBody quote text).1) := by
  unfold literal
  generalize literalBody quote text = parts at never
  obtain ⟨body, tail⟩ := parts
  cases tail with
  | nil => rfl
  | cons g rest =>
      have other : g ≠ quote.mark := by simpa using never
      simp [other]

theorem open_of_literal {quote : Quote} {encoding text body : Text}
    (encoded : encoding = [] ∨ encoding ∈ quote.encodings) {form : Enclosure}
    (found : literal quote encoding text = .unclosed form body) :
    Open form (encoding ++ quote.mark :: text) body := by
  by_cases never : (literalBody quote text).2.head? = some quote.mark
  · unfold literal at found
    generalize literalBody quote text = parts at never found
    obtain ⟨inner, tail⟩ := parts
    cases tail with
    | nil => cases never
    | cons g rest => simp [Option.some.inj never] at found
  · rw [literal_of_open encoding never] at found
    cases found
    exact .literal encoded never

theorem open_of_read {t body : Text} {form : Enclosure} (found : read t = .unclosed form body) :
    Open form t body := by
  unfold read at found
  split at found
  · cases found
  · cases found
  · split at found
    · cases found
    · rename_i never
      cases found
      exact .blockComment never
  · rename_i g rest _ _
    split at found
    · rename_i quote marked
      rw [Quote.ofMark?_eq_some.1 marked]
      exact open_of_literal (.inl rfl) found
    · split at found
      · have name := List.takeWhile_append_dropWhile (p := isWordPart) (l := g :: rest)
        unfold word at found
        generalize (g :: rest).takeWhile isWordPart = front at found name
        generalize (g :: rest).dropWhile isWordPart = back at found name
        rw [← name]
        dsimp only at found
        split at found
        · cases found
        · split at found
          · cases found
          · rename_i quote marked
            split at found
            · rename_i encodes
              rw [Quote.ofMark?_eq_some.1 marked]
              exact open_of_literal (.inr encodes) found
            · cases found
      · split at found
        · cases found
        · unfold symbol at found
          split at found <;> cases found

/-- Reading stops at exactly these forms. -/
theorem read_iff_open {t body : Text} {form : Enclosure} :
    read t = .unclosed form body ↔ Open form t body := by
  refine ⟨open_of_read, fun opened => ?_⟩
  cases opened with
  | blockComment never => simp [read, never]
  | literal encoded never => rw [read_literal encoded, literal_of_open _ never]

/-- The body of a form that is never closed is where the text begins. -/
theorem Open.body_begins {t body : Text} {form : Enclosure} (opened : Open form t body) :
    body <+: t := by
  cases opened with
  | blockComment => exact List.prefix_refl _
  | @literal quote encoding text encoded never =>
      refine (List.prefix_append_right_inj encoding).2 (List.cons_prefix_cons.2 ⟨rfl, ?_⟩)
      exact ⟨(literalBody quote text).2, literalBody_append quote text⟩

end Head

namespace Lexeme

theorem ofText_finished {text : Text} (read : Head.read (text.dropWhile isGap) = .finished) :
    ofText text = .ok [⟨text.takeWhile isGap, .eof, []⟩] := by
  unfold ofText
  split <;> simp_all

theorem ofText_open {text body : Text} {form : Enclosure}
    (read : Head.read (text.dropWhile isGap) = .unclosed form body) :
    ofText text = .error ⟨text.takeWhile isGap, form, body⟩ := by
  unfold ofText
  split <;> simp_all

theorem ofText_step {text word rest : Text} {kind : TokenKind}
    (read : Head.read (text.dropWhile isGap) = .lexeme kind word rest) :
    ofText text =
      match ofText rest with
      | .ok later => .ok (⟨text.takeWhile isGap, kind, word⟩ :: later)
      | .error fault => .error { fault with before := text.takeWhile isGap ++ word ++ fault.before } := by
  conv => lhs; unfold ofText
  split
  · simp_all
  · simp_all
  · rename_i found
    rw [read] at found
    cases found
    cases ofText rest <;> rfl

/-- A chain is cut off whatever follows it. -/
theorem ofText_chain_append {lexemes : List Lexeme} {rest : Text} (chain : Chain lexemes rest) :
    ofText (flatten lexemes ++ rest) =
      match ofText rest with
      | .ok after => .ok (lexemes ++ after)
      | .error fault => .error { fault with before := flatten lexemes ++ fault.before } := by
  induction chain with
  | @nil rest => cases read : ofText rest <;> simp [flatten, read]
  | @cons l later rest blank starts form _ ih =>
      have first : ∀ g ∈ (l.text ++ (flatten later ++ rest)).head?, isGap g = false := by
        cases text : l.text with
        | nil => exact absurd text (form_text_ne_nil form)
        | cons g more =>
            rw [text] at starts
            exact starts
      obtain ⟨front, back⟩ := gaps_split blank first
      have read := Head.read_of_form form
      rw [← back] at read
      rw [flatten_cons, List.append_assoc, List.append_assoc, ofText_step read, ih, front]
      cases ofText rest with
      | ok after => rfl
      | error fault => simp

end Lexeme

end FormatLint
