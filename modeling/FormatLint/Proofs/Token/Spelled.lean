import FormatLint.Proofs.Cast.Operand
import FormatLint.Proofs.Token.StringLiteral

/-!
How the tokens of a file are spelled: parentheses and commas in one way each, and names like no
bracket.
-/

namespace FormatLint

namespace Head

theorem Form.delimiter {kind : TokenKind} {word rest : Text} (form : Form kind word rest) :
    (kind = .openParen → word = Text.ofString "(") ∧
      (kind = .closeParen → word = Text.ofString ")") ∧
      (kind = .comma → word = Text.ofString ",") := by
  cases form with
  | @literal quote _ _ _ _ _ => cases quote <;> simp [Quote.kind]
  | @symbol g more _ _ _ _ _ _ spelled =>
      rcases spelled with ⟨rfl, _⟩ | ⟨rfl, rfl⟩
      · simp
      · unfold glyphKind
        split
        · rename_i same
          subst same
          simp [Text.ofString]
        · split
          · rename_i same
            subst same
            simp [Text.ofString]
          · split
            · rename_i same
              subst same
              simp [Text.ofString]
            · split <;> simp
  | _ => simp

/-- A name begins with a letter and goes on for as long as it can. -/
theorem Form.ident_cases {word rest : Text} (form : Form .ident word rest) :
    ∃ g more, word = g :: more ∧ isWordStart g = true ∧ (∀ p ∈ more, isWordPart p = true) ∧
      ∀ p ∈ rest.head?, isWordPart p = false := by
  generalize name : TokenKind.ident = kind at form
  cases form with
  | @ident g more _ start parts ends _ => exact ⟨g, more, rfl, start, parts, ends⟩
  | @literal quote _ _ _ _ _ => cases quote <;> cases name
  | @symbol g _ _ _ _ _ _ _ spelled =>
      rcases spelled with ⟨rfl, _⟩ | ⟨rfl, _⟩
      · cases name
      · unfold glyphKind at name
        split at name
        · cases name
        · split at name
          · cases name
          · split at name
            · cases name
            · split at name <;> cases name
  | _ => cases name

theorem Form.ident_inversion {word rest : Text} (form : Form .ident word rest) :
    (∃ g more, word = g :: more ∧ isWordStart g = true) ∧
      ∀ g ∈ rest.head?, isWordPart g = false := by
  obtain ⟨g, more, spelled, start, _, ends⟩ := form.ident_cases
  exact ⟨⟨g, more, spelled, start⟩, ends⟩

/-- What begins with no bracket is none. -/
theorem noBracket {word : Text} (other : ∀ g ∈ word.head?, g ∉ Text.ofString "()[]") :
    Cast.closer? word = none ∧ word ∉ Cast.closers := by
  have marks : ∀ mark ∈ ["(", "[", ")", "]"], ∃ g ∈ (Text.ofString mark).head?,
      g ∈ Text.ofString "()[]" := by
    decide
  have differs (mark : String) (listed : mark ∈ ["(", "[", ")", "]"]) :
      word ≠ Text.ofString mark := by
    rintro rfl
    obtain ⟨g, first, inside⟩ := marks mark listed
    exact other g first inside
  have opens : Cast.closer? word = none := by
    simp [Cast.closer?, differs "(" (by simp), differs "[" (by simp)]
  refine ⟨opens, ?_⟩
  simp only [Cast.closers, List.mem_cons, List.not_mem_nil, or_false, not_or]
  exact ⟨differs ")" (by simp), differs "]" (by simp)⟩

/-- No bracket begins like a name. -/
theorem bracket_start {g : Glyph} (start : isWordStart g = true) : g ∉ Text.ofString "()[]" := by
  have marks : ∀ g ∈ Text.ofString "()[]", isWordStart g = false := by decide
  intro bracket
  rw [marks g bracket] at start
  cases start

/-- So a name is no bracket. -/
theorem Form.noBracket {word rest : Text} (form : Form .ident word rest) :
    Cast.closer? word = none ∧ word ∉ Cast.closers := by
  obtain ⟨⟨g, more, rfl, start⟩, _⟩ := form.ident_inversion
  exact Head.noBracket fun h first => Option.some.inj first ▸ bracket_start start

end Head

/-- The token is spelled as its kind demands, as far as brackets are concerned. -/
structure Token.Spelled (t : Token) : Prop where
  name : t.kind = .ident → Cast.IsName t
  opening : t.kind = .openParen → t.lexeme = Text.ofString "("
  closing : t.kind = .closeParen → t.lexeme = Text.ofString ")"
  comma : t.kind = .comma → t.lexeme = Text.ofString ","

theorem Token.spelled_of_tokenize {file text : Text} {tokens : List Token}
    (read : tokenize file text = .ok tokens) : ∀ t ∈ tokens, t.Spelled := by
  intro t member
  rcases tokenize_form read member with ⟨eof, _⟩ | form
  · exact ⟨by simp [eof], by simp [eof], by simp [eof], by simp [eof]⟩
  · obtain ⟨opening, closing, comma⟩ := form.delimiter
    refine ⟨fun ident => ?_, opening, closing, comma⟩
    rw [ident] at form
    obtain ⟨opens, closes⟩ := form.noBracket
    exact ⟨ident, opens, closes⟩

end FormatLint
