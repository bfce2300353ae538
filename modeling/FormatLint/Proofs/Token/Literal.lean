import FormatLint.Proofs.Token.Form

/-!
Literals, of characters and of strings. `Head.form_literal_iff` says that a literal is read exactly if
it is spelled as one: an encoding, perhaps none, and between two quotes a text that they enclose.
-/

namespace FormatLint

namespace Quote

/-- The text can stand between two of these quotes: a backslash takes the next glyph along, and apart
from that there is neither such a quote nor the end of a line. -/
inductive Encloses (quote : Quote) : Text → Prop
  | nil : Encloses quote []
  | escape {g : Glyph} {rest : Text} (later : Encloses quote rest) :
      Encloses quote (.char '\\' :: g :: rest)
  | plain {g : Glyph} {rest : Text} (noSlash : g ≠ .char '\\') (noQuote : g ≠ quote.mark)
      (noFeed : g ≠ .char '\n') (later : Encloses quote rest) : Encloses quote (g :: rest)

/-- An encoding, perhaps none, and an enclosed text between two quotes. -/
def IsLiteral (quote : Quote) (word : Text) : Prop :=
  ∃ encoding body, (encoding = [] ∨ encoding ∈ quote.encodings) ∧ quote.Encloses body ∧
    word = encoding ++ quote.mark :: (body ++ [quote.mark])

theorem mark_ne_slash (quote : Quote) : quote.mark ≠ .char '\\' := by
  cases quote <;> decide

theorem kind_injective {quote other : Quote} (same : quote.kind = other.kind) : quote = other := by
  cases quote <;> cases other <;> simp_all [kind]

end Quote

namespace Head

open Quote (Encloses)

variable {quote : Quote}

theorem literalBody_stop {g : Glyph} (ends : g = quote.mark ∨ g = .char '\n') (rest : Text) :
    literalBody quote (g :: rest) = ([], g :: rest) := by
  cases rest <;> simp [literalBody, ends]

theorem literalBody_escape (g : Glyph) (rest : Text) :
    literalBody quote (.char '\\' :: g :: rest) =
      (.char '\\' :: g :: (literalBody quote rest).1, (literalBody quote rest).2) := by
  simp [literalBody, quote.mark_ne_slash.symm]

theorem literalBody_plain {g : Glyph} (noSlash : g ≠ .char '\\') (noQuote : g ≠ quote.mark)
    (noFeed : g ≠ .char '\n') (rest : Text) :
    literalBody quote (g :: rest) =
      (g :: (literalBody quote rest).1, (literalBody quote rest).2) := by
  cases rest <;> simp [literalBody, noSlash, noQuote, noFeed]

/-- Reading takes an enclosed text along whatever follows it. -/
theorem literalBody_append_enclosed {body : Text} (encloses : quote.Encloses body) (rest : Text) :
    literalBody quote (body ++ rest) =
      (body ++ (literalBody quote rest).1, (literalBody quote rest).2) := by
  induction encloses with
  | nil => rfl
  | escape _ ih => rw [List.cons_append, List.cons_append, literalBody_escape, ih]; rfl
  | plain noSlash noQuote noFeed _ ih =>
      rw [List.cons_append, literalBody_plain noSlash noQuote noFeed, ih]
      rfl

/-- Reading stops behind an enclosed text, at a quote, at the end of a line or at the end of the text,
where a backslash may be left over that has nothing to take along. -/
theorem literalBody_inversion (quote : Quote) (t : Text) :
    quote.Encloses (literalBody quote t).1 ∧
        (∀ g ∈ (literalBody quote t).2.head?, g = quote.mark ∨ g = .char '\n') ∨
      ∃ inner, quote.Encloses inner ∧ literalBody quote t = (inner ++ [.char '\\'], []) := by
  fun_induction literalBody quote t with
  | case1 => exact .inl ⟨.nil, by simp⟩
  | case2 g ends => exact .inl ⟨.nil, by simpa using ends⟩
  | case3 g inside =>
      rw [not_or] at inside
      by_cases slash : g = .char '\\'
      · exact .inr ⟨[], .nil, by rw [slash]; rfl⟩
      · exact .inl ⟨.plain slash inside.1 inside.2 .nil, by simp⟩
  | case4 g next rest ends => exact .inl ⟨.nil, by simpa using ends⟩
  | case5 next rest body tail read inside ih =>
      simp only [read, Prod.mk.injEq] at ih
      rcases ih with ⟨encloses, stops⟩ | ⟨inner, encloses, rfl, rfl⟩
      · exact .inl ⟨.escape encloses, stops⟩
      · exact .inr ⟨.char '\\' :: next :: inner, .escape encloses, rfl⟩
  | case6 g next rest inside noSlash body tail read ih =>
      rw [not_or] at inside
      simp only [read, Prod.mk.injEq] at ih
      rcases ih with ⟨encloses, stops⟩ | ⟨inner, encloses, rfl, rfl⟩
      · exact .inl ⟨.plain noSlash inside.1 inside.2 encloses, stops⟩
      · exact .inr ⟨g :: inner, .plain noSlash inside.1 inside.2 encloses, rfl⟩

theorem literalBody_eq_iff {body rest : Text} :
    literalBody quote (body ++ quote.mark :: rest) = (body, quote.mark :: rest) ↔
      quote.Encloses body := by
  constructor
  · intro closed
    rcases literalBody_inversion quote (body ++ quote.mark :: rest) with ⟨encloses, _⟩ | ⟨_, _, unclosed⟩
    · rwa [closed] at encloses
    · rw [closed] at unclosed
      cases (Prod.mk.inj unclosed).2
  · intro encloses
    rw [literalBody_append_enclosed encloses, literalBody_stop (.inl rfl), List.append_nil]

/-- A literal is read exactly if it is spelled as one. -/
theorem form_literal_iff {word rest : Text} : Form quote.kind word rest ↔ quote.IsLiteral word := by
  constructor
  · intro form
    generalize same : quote.kind = kind at form
    cases form with
    | @literal other encoding body _ encoded closed =>
        cases Quote.kind_injective same
        exact ⟨encoding, body, encoded, literalBody_eq_iff.1 closed, rfl⟩
    | symbol _ _ _ _ spelled =>
        rcases spelled with ⟨rfl, _⟩ | ⟨symbol, _⟩
        · cases quote <;> cases same
        · rw [← same] at symbol
          unfold glyphKind at symbol
          cases quote <;> grind [Quote.kind]
    | _ => cases quote <;> cases same
  · rintro ⟨encoding, body, encoded, encloses, rfl⟩
    exact .literal encoded (literalBody_eq_iff.2 encloses)

end Head

end FormatLint
