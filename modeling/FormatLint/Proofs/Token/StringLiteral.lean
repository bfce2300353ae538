import FormatLint.Format.Content
import FormatLint.Proofs.Token.Chain
import FormatLint.Proofs.Token.Literal

/-!
The insides of string literals. A text can stand between double quotes exactly if it is `Enclosed`;
every string token of a file has such an inside.
-/

namespace FormatLint

/-- The text can stand between double quotes: a backslash takes the next glyph along, and apart from
that there is neither a quote nor the end of a line. -/
inductive Enclosed : Text → Prop
  | nil : Enclosed []
  | escape {g : Glyph} {rest : Text} (later : Enclosed rest) : Enclosed (.char '\\' :: g :: rest)
  | plain {g : Glyph} {rest : Text} (noSlash : g ≠ .char '\\') (noQuote : g ≠ .char '"')
      (noFeed : g ≠ .char '\n') (later : Enclosed rest) : Enclosed (g :: rest)

namespace Enclosed

theorem append {before after : Text} (first : Enclosed before) (second : Enclosed after) :
    Enclosed (before ++ after) := by
  induction first with
  | nil => exact second
  | escape _ ih => exact .escape ih
  | plain noSlash noQuote noFeed _ ih => exact .plain noSlash noQuote noFeed ih

theorem behind_escape {g : Glyph} {rest : Text} (whole : Enclosed (.char '\\' :: g :: rest)) :
    Enclosed rest := by
  cases whole with
  | escape later => exact later
  | plain noSlash => exact absurd rfl noSlash

theorem behind_plain {g : Glyph} {rest : Text} (noSlash : g ≠ .char '\\')
    (whole : Enclosed (g :: rest)) : Enclosed rest := by
  cases whole with
  | escape => exact absurd rfl noSlash
  | plain _ _ _ later => exact later

theorem flatten {bodies : List Text} (all : ∀ body ∈ bodies, Enclosed body) :
    Enclosed bodies.flatten := by
  induction bodies with
  | nil => exact .nil
  | cons body later ih =>
      exact (all body List.mem_cons_self).append
        (ih fun other member => all other (List.mem_cons_of_mem body member))

end Enclosed

/-- Of both quotes, this is what the double ones enclose. -/
theorem enclosed_iff {t : Text} : Enclosed t ↔ Quote.double.Encloses t := by
  constructor
  · intro enclosed
    induction enclosed with
    | nil => exact .nil
    | escape _ ih => exact .escape ih
    | plain noSlash noQuote noFeed _ ih => exact .plain noSlash noQuote noFeed ih
  · intro encloses
    induction encloses with
    | nil => exact .nil
    | escape _ ih => exact .escape ih
    | plain noSlash noQuote noFeed _ ih => exact .plain noSlash noQuote noFeed ih

namespace Head

theorem form_string_iff {word rest : Text} :
    Form .string word rest ↔ ∃ encoding body,
      (encoding = [] ∨ encoding ∈ Quote.double.encodings) ∧ Enclosed body ∧
        word = encoding ++ .char '"' :: (body ++ [.char '"']) := by
  have literal : Form .string word rest ↔ Quote.double.IsLiteral word :=
    @form_literal_iff .double word rest
  simp only [literal, Quote.IsLiteral, enclosed_iff]
  rfl

end Head

namespace Token

def body (t : Token) : Text := (t.lexeme.dropWhile (· ≠ .char '"')).tail.dropLast

theorem text_dropWhile (p : Position) (t : Text) :
    Located.text ((Located.ofText p t).dropWhile (·.glyph ≠ .char '"')) =
      t.dropWhile (· ≠ .char '"') := by
  induction t generalizing p with
  | nil => rfl
  | cons g rest ih =>
      by_cases quote : g = .char '"'
      · simp [Located.ofText, quote, Located.text]
        exact Located.text_ofText _ rest
      · simpa [Located.ofText, quote] using ih (p.step g)

theorem text_literalBody (t : Token) : Located.text t.literalBody = t.body := by
  rw [body, ← text_dropWhile t.span.start]
  simp [literalBody, Located.text]

theorem body_eq {encoding inside : Text} {t : Token} (noQuote : .char '"' ∉ encoding)
    (spelled : t.lexeme = encoding ++ .char '"' :: (inside ++ [.char '"'])) : t.body = inside := by
  have skipped : ∀ g ∈ encoding, decide (g ≠ .char '"') = true := by
    intro g member
    refine decide_eq_true ?_
    rintro rfl
    exact noQuote member
  rw [body, spelled, List.dropWhile_append_of_pos skipped]
  simp

theorem encoding_noQuote {encoding : Text} {quote : Quote}
    (encoded : encoding = [] ∨ encoding ∈ quote.encodings) : .char '"' ∉ encoding := by
  have all : ∀ name ∈ [] :: quote.encodings, .char '"' ∉ name := by
    cases quote <;> decide
  exact all encoding (List.mem_cons.2 encoded)

/-- The tokens of a file are the lexemes of its text with their places. -/
theorem tokenize_eq_ok_iff {file text : Text} {tokens : List Token} :
    tokenize file text = .ok tokens ↔
      ∃ lexemes, Lexeme.ofText text = .ok lexemes ∧ tokens = place file .first lexemes := by
  unfold tokenize
  cases Lexeme.ofText text with
  | error unclosed => simp
  | ok lexemes => simp [eq_comm]

theorem place_form {lexemes : List Lexeme} {rest : Text} (chain : Lexeme.Chain lexemes rest)
    {file : Text} {p : Position} {t : Token} (member : t ∈ place file p lexemes) :
    ∃ front back, Lexeme.flatten lexemes ++ rest = front ++ (t.lexeme ++ back) ∧
      t.span.stop = p.after (front ++ t.lexeme) ∧ Head.Form t.kind t.lexeme back := by
  induction chain generalizing p with
  | nil => cases member
  | @cons l later rest _ _ form _ ih =>
      rw [Lexeme.flatten_cons]
      rcases List.mem_cons.1 member with rfl | member
      · refine ⟨l.blanks, Lexeme.flatten later ++ rest, ?_, (p.after_append l.blanks l.text).symm, form⟩
        simp only [List.append_assoc]
      · obtain ⟨front, back, whole, stop, form⟩ := ih member
        refine ⟨l.blanks ++ l.text ++ front, back, ?_, ?_, form⟩
        · rw [List.append_assoc, whole]
          simp only [List.append_assoc]
        · rw [stop]
          simp only [Position.after_append]

/-- Every token of a file but its end is a lexeme of its form, read in front of what follows it. -/
theorem tokenize_form {file text : Text} {tokens : List Token} {t : Token}
    (read : tokenize file text = .ok tokens) (member : t ∈ tokens) :
    t.kind = .eof ∧ t.lexeme = [] ∨
      Head.Form t.kind t.lexeme (text.drop t.span.stop.offset) := by
  obtain ⟨lexemes, cut, rfl⟩ := tokenize_eq_ok_iff.1 read
  obtain ⟨chain, blanks, rfl, rfl, chained, _⟩ := Lexeme.ofText_eq_ok_iff.1 cut
  rw [place_append] at member
  rcases List.mem_append.1 member with inside | last
  · obtain ⟨front, back, whole, stop, form⟩ := place_form chained inside
    have offset : t.span.stop.offset = (front ++ t.lexeme).length := by
      rw [stop, Position.after_offset]
      exact Nat.zero_add _
    rw [whole, offset, ← List.append_assoc, List.drop_left]
    exact .inr form
  · rw [List.mem_singleton.1 last]
    exact .inl ⟨rfl, rfl⟩

theorem string_lexeme {file text : Text} {tokens : List Token} {t : Token}
    (read : tokenize file text = .ok tokens) (member : t ∈ tokens) (string : t.kind = .string) :
    Enclosed t.body ∧ ∃ encoding, (encoding = [] ∨ encoding ∈ Quote.double.encodings) ∧
      t.lexeme = encoding ++ .char '"' :: (t.body ++ [.char '"']) := by
  rcases tokenize_form read member with ⟨eof, _⟩ | form
  · rw [string] at eof
    cases eof
  · rw [string] at form
    obtain ⟨encoding, inside, encoded, enclosed, spelled⟩ := Head.form_string_iff.1 form
    rw [body_eq (encoding_noQuote encoded) spelled]
    exact ⟨enclosed, encoding, encoded, spelled⟩

end Token

end FormatLint
