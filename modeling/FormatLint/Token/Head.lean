import FormatLint.Token.Basic

/-!
The first lexeme of a text that does not start with a blank: a comment, a literal, an identifier, a
preprocessing number, or a punctuator. Literals and block comments have to be closed; a text in
which one of them is not has no first lexeme.

`Head.read_lexeme` says that reading splits the text and takes at least one glyph of it.
-/

namespace FormatLint

/-- The two marks that enclose literals. -/
inductive Quote where
  | double
  | single
  deriving DecidableEq

namespace Quote

def mark : Quote → Glyph
  | .double => .char '"'
  | .single => .char '\''

def ofMark? (g : Glyph) : Option Quote :=
  if g = .char '"' then some .double else if g = .char '\'' then some .single else none

def kind : Quote → TokenKind
  | .double => .string
  | .single => .char

/-- The identifiers that make a literal wide when they stand directly before its opening quote. -/
def encodings : Quote → List Text
  | .double => ["u8", "u", "U", "L"]
  | .single => ["u", "U", "L"]

theorem ofMark?_eq_some {g : Glyph} {quote : Quote} :
    ofMark? g = some quote ↔ g = quote.mark := by
  cases quote <;> simp only [ofMark?, mark] <;> split <;> simp_all

end Quote

/-- A form that has to be closed. -/
inductive Enclosure where
  | literal (quote : Quote)
  | blockComment
  deriving DecidableEq

namespace Enclosure

def message : Enclosure → Text
  | .literal .double => "unterminated string literal"
  | .literal .single => "unterminated character literal"
  | .blockComment => "unterminated block comment"

def hint : Enclosure → Text
  | .literal quote => "close the " ++ [quote.mark] ++ " quote"
  | .blockComment => "add closing */"

end Enclosure

/-- What a text begins with. The body of an unclosed form reaches to the place where reading it
stopped. -/
inductive Head where
  | finished
  | lexeme (kind : TokenKind) (word rest : Text)
  | unclosed (form : Enclosure) (body : Text)

namespace Head

def isLetter (c : Char) : Bool := c.isAlpha || c == '_' || c == '$'

def isWordStart (g : Glyph) : Bool := g.satisfies isLetter

def isWordPart (g : Glyph) : Bool := g.satisfies fun c => isLetter c || c.isDigit

def isAsciiDigit (g : Glyph) : Bool := g.satisfies Char.isDigit

def isNumberPart (g : Glyph) : Bool := g.satisfies fun c => c.isAlphanum || c == '_' || c == '.'

/-- The letter may be followed by a sign within a number. -/
def isExponent (g : Glyph) : Bool := g.satisfies fun c => c ∈ ['e', 'E', 'p', 'P']

def isSign (g : Glyph) : Bool := g.satisfies fun c => c == '+' || c == '-'

/-- A line comment up to the end of its line. A line feed behind a backslash does not end it. -/
def lineComment : Text → Text × Text
  | [] => ([], [])
  | [g] => if g = .char '\n' then ([], [g]) else ([g], [])
  | g :: next :: rest =>
    if g = .char '\n' then ([], g :: next :: rest)
    else if g = .char '\\' ∧ next = .char '\n' then
      let (body, tail) := lineComment rest
      (g :: next :: body, tail)
    else
      let (body, tail) := lineComment (next :: rest)
      (g :: body, tail)

/-- A block comment up to and with the first closing mark. -/
def blockComment : Text → Option (Text × Text)
  | [] => none
  | .char '*' :: .char '/' :: rest => some ([.char '*', .char '/'], rest)
  | g :: rest => (blockComment rest).map fun (body, tail) => (g :: body, tail)

/-- The inside of a literal: every glyph up to the quote or the end of the line, where a backslash
takes the glyph behind it along. -/
def literalBody (quote : Quote) : Text → Text × Text
  | [] => ([], [])
  | [g] => if g = quote.mark ∨ g = .char '\n' then ([], [g]) else ([g], [])
  | g :: next :: rest =>
    if g = quote.mark ∨ g = .char '\n' then ([], g :: next :: rest)
    else if g = .char '\\' then
      let (body, tail) := literalBody quote rest
      (g :: next :: body, tail)
    else
      let (body, tail) := literalBody quote (next :: rest)
      (g :: body, tail)

/-- A literal whose opening quote stands between `encoding` and `text`. -/
def literal (quote : Quote) (encoding text : Text) : Head :=
  let (body, tail) := literalBody quote text
  let opened := encoding ++ quote.mark :: body
  match tail with
  | [] => .unclosed (.literal quote) opened
  | g :: rest =>
    if g = quote.mark then .lexeme quote.kind (opened ++ [quote.mark]) rest
    else .unclosed (.literal quote) opened

def word (text : Text) : Head :=
  let name := text.takeWhile isWordPart
  let rest := text.dropWhile isWordPart
  match rest with
  | [] => .lexeme .ident name rest
  | g :: later =>
    match Quote.ofMark? g with
    | none => .lexeme .ident name rest
    | some quote =>
      if name ∈ quote.encodings then literal quote name later else .lexeme .ident name rest

/-- The glyphs that continue a preprocessing number, signs of exponents included. -/
def numberTail : Text → Text × Text
  | [] => ([], [])
  | [g] => if isNumberPart g then ([g], []) else ([], [g])
  | g :: next :: rest =>
    if isExponent g && isSign next then
      let (body, tail) := numberTail rest
      (g :: next :: body, tail)
    else if isNumberPart g then
      let (body, tail) := numberTail (next :: rest)
      (g :: body, tail)
    else ([], g :: next :: rest)

/-- A preprocessing number: a digit, perhaps behind a period, and all that continues it. -/
def number? : Text → Option (Text × Text)
  | .char '.' :: g :: rest =>
    if isAsciiDigit g then
      let (body, tail) := numberTail rest
      some (.char '.' :: g :: body, tail)
    else none
  | g :: rest =>
    if isAsciiDigit g then
      let (body, tail) := numberTail rest
      some (g :: body, tail)
    else none
  | [] => none

/-- The punctuators of several glyphs, longer ones first. -/
def longPunctuators : List Text :=
  ["...", "<<=", ">>=", "->", "++", "--", "<<", ">>", "<=", ">=", "==", "!=", "&&", "||",
   "*=", "/=", "%=", "+=", "-=", "&=", "^=", "|=", "##"]

/-- The punctuators of one glyph, parentheses and the comma apart. -/
def shortPunctuators : Text := "[]\x7b\x7d.&*+-~!/%<>^|?:;=#"

/-- The kind of a glyph that stands for itself. -/
def glyphKind (g : Glyph) : TokenKind :=
  if g = .char '(' then .openParen
  else if g = .char ')' then .closeParen
  else if g = .char ',' then .comma
  else if g ∈ shortPunctuators then .punct
  else .other

/-- The longest punctuator, or else a single glyph. -/
def symbol (g : Glyph) (rest : Text) : Head :=
  match longPunctuators.find? (·.isPrefixOf (g :: rest)) with
  | some mark => .lexeme .punct mark ((g :: rest).drop mark.length)
  | none => .lexeme (glyphKind g) [g] rest

/-- What the text begins with. -/
def read : Text → Head
  | [] => .finished
  | .char '/' :: .char '/' :: rest =>
    let (body, tail) := lineComment rest
    .lexeme .comment (.char '/' :: .char '/' :: body) tail
  | .char '/' :: .char '*' :: rest =>
    match blockComment rest with
    | some (body, tail) => .lexeme .comment (.char '/' :: .char '*' :: body) tail
    | none => .unclosed .blockComment (.char '/' :: .char '*' :: rest)
  | g :: rest =>
    match Quote.ofMark? g with
    | some quote => literal quote [] rest
    | none =>
      if isWordStart g then word (g :: rest)
      else match number? (g :: rest) with
        | some (number, tail) => .lexeme .other number tail
        | none => symbol g rest

theorem lineComment_append (t : Text) : (lineComment t).1 ++ (lineComment t).2 = t := by
  fun_induction lineComment t <;> simp_all

theorem blockComment_append {t body tail : Text} (closed : blockComment t = some (body, tail)) :
    body ++ tail = t := by
  fun_induction blockComment t generalizing body tail with
  | case1 => simp at closed
  | case2 rest => simp at closed; obtain ⟨rfl, rfl⟩ := closed; rfl
  | case3 g rest _ ih =>
    obtain ⟨⟨inner, later⟩, found, equal⟩ := Option.map_eq_some_iff.1 closed
    obtain ⟨rfl, rfl⟩ := Prod.mk.inj equal
    simp [ih found]

theorem literalBody_append (quote : Quote) (t : Text) :
    (literalBody quote t).1 ++ (literalBody quote t).2 = t := by
  fun_induction literalBody quote t <;> simp_all

theorem numberTail_append (t : Text) : (numberTail t).1 ++ (numberTail t).2 = t := by
  fun_induction numberTail t <;> simp_all

theorem number?_append {t number tail : Text} (found : number? t = some (number, tail)) :
    t = number ++ tail ∧ number ≠ [] := by
  unfold number? at found
  split at found
  · split at found
    · obtain ⟨rfl, rfl⟩ := Prod.mk.inj (Option.some.inj found)
      simp [numberTail_append]
    · cases found
  · split at found
    · obtain ⟨rfl, rfl⟩ := Prod.mk.inj (Option.some.inj found)
      simp [numberTail_append]
    · cases found
  · cases found

theorem literal_lexeme {quote : Quote} {encoding text word rest : Text} {kind : TokenKind}
    (closed : literal quote encoding text = .lexeme kind word rest) :
    encoding ++ quote.mark :: text = word ++ rest ∧ word ≠ [] := by
  have split_text := literalBody_append quote text
  unfold literal at closed
  generalize literalBody quote text = parts at closed split_text
  obtain ⟨body, tail⟩ := parts
  dsimp only at closed split_text
  split at closed
  · cases closed
  · rename_i g later
    split at closed
    · rename_i same
      subst same
      cases closed
      simp [← split_text]
    · cases closed

theorem word_lexeme {text name rest : Text} {kind : TokenKind}
    (start : text.head?.any isWordPart) (found : word text = .lexeme kind name rest) :
    text = name ++ rest ∧ name ≠ [] := by
  have split_text := (List.takeWhile_append_dropWhile (p := isWordPart) (l := text))
  have named : text.takeWhile isWordPart ≠ [] := by
    cases text with
    | nil => simp at start
    | cons g later => simp_all
  unfold word at found
  generalize text.takeWhile isWordPart = front at found split_text named
  generalize text.dropWhile isWordPart = back at found split_text
  subst split_text
  dsimp only at found
  split at found
  · cases found; exact ⟨rfl, named⟩
  · rename_i g later
    split at found
    · cases found; exact ⟨rfl, named⟩
    · rename_i quote marked
      split at found
      · rw [Quote.ofMark?_eq_some.1 marked]
        exact literal_lexeme found
      · cases found; exact ⟨rfl, named⟩

theorem symbol_lexeme {g : Glyph} {rest mark tail : Text} {kind : TokenKind}
    (found : symbol g rest = .lexeme kind mark tail) :
    g :: rest = mark ++ tail ∧ mark ≠ [] := by
  unfold symbol at found
  split at found
  · rename_i spelling listed
    cases found
    have begins := List.find?_some listed
    have member := List.mem_of_find?_eq_some listed
    obtain ⟨later, equal⟩ := List.isPrefixOf_iff_prefix.1 begins
    refine ⟨by rw [← equal]; simp, ?_⟩
    rintro rfl
    exact absurd member (by decide)
  · cases found
    simp

/-- Reading a lexeme splits the text and takes at least one glyph. -/
theorem read_lexeme {text word rest : Text} {kind : TokenKind}
    (found : read text = .lexeme kind word rest) : text = word ++ rest ∧ word ≠ [] := by
  unfold read at found
  split at found
  · cases found
  · cases found
    simp [lineComment_append]
  · split at found
    · rename_i body tail closed
      cases found
      simp [blockComment_append closed]
    · cases found
  · rename_i g later _ _
    split at found
    · rename_i quote marked
      rw [Quote.ofMark?_eq_some.1 marked]
      exact literal_lexeme found
    · split at found
      · rename_i start
        refine word_lexeme ?_ found
        cases g <;> simp_all [isWordStart, isWordPart]
      · split at found
        · rename_i number tail counted
          cases found
          exact number?_append counted
        · exact symbol_lexeme found

theorem literal_ne_finished (quote : Quote) (encoding text : Text) :
    literal quote encoding text ≠ .finished := by
  unfold literal
  generalize literalBody quote text = parts
  obtain ⟨body, tail⟩ := parts
  dsimp only
  split
  · simp
  · split <;> simp

theorem word_ne_finished (text : Text) : word text ≠ .finished := by
  unfold word
  dsimp only
  split
  · simp
  · split
    · simp
    · split
      · exact literal_ne_finished _ _ _
      · simp

theorem read_eq_finished {text : Text} : read text = .finished ↔ text = [] := by
  constructor
  · intro finished
    unfold read at finished
    split at finished
    · rfl
    · cases finished
    · split at finished <;> cases finished
    · split at finished
      · exact absurd finished (literal_ne_finished _ _ _)
      · split at finished
        · exact absurd finished (word_ne_finished _)
        · split at finished
          · cases finished
          · unfold symbol at finished
            split at finished <;> cases finished
  · rintro rfl
    rfl

theorem read_rest_length {text word rest : Text} {kind : TokenKind}
    (found : read text = .lexeme kind word rest) : rest.length < text.length := by
  obtain ⟨rfl, nonempty⟩ := read_lexeme found
  have positive := List.length_pos_iff.2 nonempty
  simp only [List.length_append]
  omega

end Head

end FormatLint
