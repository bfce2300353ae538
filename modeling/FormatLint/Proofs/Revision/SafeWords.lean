import FormatLint.Proofs.Revision.CastType
import FormatLint.Proofs.Revision.SafeForm

/-!
How the texts are read that turn a call into a safe one: the number of segments, braces and tags, and
the segments in quotes.
-/

namespace FormatLint

namespace Head

theorem numberTail_digits {digits : Text} (ascii : ∀ d ∈ digits, isAsciiDigit d = true) {g : Glyph}
    (rest : Text) (outside : isNumberPart g = false) :
    numberTail (digits ++ g :: rest) = (digits, g :: rest) := by
  induction digits with
  | nil => exact numberTail_nil (by simpa using outside)
  | cons d digits ih =>
      have later := ih fun other member => ascii other (List.mem_cons_of_mem d member)
      have digit := ascii d List.mem_cons_self
      have part : isNumberPart d = true := by
        cases d with
        | raw byte => cases digit
        | char c =>
            have number : c.isDigit = true := digit
            simp [isNumberPart, Char.isAlphanum, number]
      have noExponent : isExponent d = false := by
        cases exponent : isExponent d with
        | false => rfl
        | true =>
            cases d with
            | raw byte => cases digit
            | char c =>
                have letters : ['e', 'E', 'p', 'P'].all (fun letter => !letter.isDigit) = true := by
                  decide
                have empty := List.all_eq_true.1 letters c (by simpa [isExponent] using exponent)
                have number : c.isDigit = true := digit
                simp [number] at empty
      obtain ⟨next, tail, whole⟩ : ∃ next tail, digits ++ g :: rest = next :: tail := by
        cases digits <;> simp
      rw [whole] at later
      simp [numberTail, whole, noExponent, part, later]

end Head

theorem ofNat_digits (n : Nat) : ∀ d ∈ Text.ofNat n, Head.isAsciiDigit d = true := by
  intro d member
  obtain ⟨c, digit, rfl⟩ := List.mem_map.1 member
  exact Nat.isDigit_of_mem_toDigits (by decide) (by decide) digit

theorem scan_ofNat (n : Nat) {g : Glyph} {rest : Text} (bounds : Head.isBoundary g = true) :
    Scan (Text.ofNat n) [(.other, Text.ofNat n)] (g :: rest) := by
  obtain ⟨_, outside, _⟩ := Head.boundary_classes bounds
  have ascii := ofNat_digits n
  have nonempty : Text.ofNat n ≠ [] := by
    simp [Text.ofNat, Nat.toDigits_ne_nil]
  generalize Text.ofNat n = numeral at ascii nonempty
  cases numeral with
  | nil => exact absurd rfl nonempty
  | cons d digits =>
      have digit := ascii d List.mem_cons_self
      have tail := Head.numberTail_digits
        (fun other member => ascii other (List.mem_cons_of_mem d member)) rest outside
      have noPeriod : d ≠ .char '.' := by
        rintro rfl
        exact absurd digit (by decide)
      have solid : Lexeme.isGap d = false := by
        cases gap : Lexeme.isGap d with
        | false => rfl
        | true =>
            have noDigit := (Head.boundary_classes (g := d) (by simp [Head.isBoundary, gap])).2.2.2.1
            rw [digit] at noDigit
            cases noDigit
      refine .single (by simpa using solid) (.number ?_)
      rw [List.cons_append]
      unfold Head.number?
      split
      · rename_i same
        exact absurd (List.cons.inj same).1 noPeriod
      · rename_i same
        obtain ⟨rfl, rfl⟩ := List.cons.inj same
        simp [digit, tail]
      · rename_i same
        cases same

/-- The glyph is a word by itself, whatever follows it. -/
theorem Head.form_alone {g : Glyph} (listed : g ∈ Text.ofString ",\x7b\x7d()") (rest : Text) :
    Form (glyphKind g) [g] rest := by
  have plain : ∀ g ∈ Text.ofString ",\x7b\x7d()", Quote.ofMark? g = none ∧ isWordStart g = false ∧
      isAsciiDigit g = false ∧ g ≠ .char '.' ∧ ∀ mark ∈ openings, mark.head? ≠ some g := by decide
  obtain ⟨unquoted, noWord, noDigit, noPeriod, alone⟩ := plain g listed
  refine .symbol unquoted noWord (number?_eq_none.2 ⟨noDigit, fun period => absurd period noPeriod⟩)
    (fun mark opening begins => ?_) (.inr ⟨rfl, rfl⟩)
  cases mark with
  | nil => exact Nat.zero_le _
  | cons first later =>
      have same := (List.cons_prefix_cons.1 begins).1
      exact absurd (congrArg some same) (alone _ opening)

/-- The text is read as the words, whatever follows it. -/
def Begins (lead : Text) (words : List Word) : Prop :=
  ∀ ⦃t : Text⦄ ⦃later : List Word⦄ ⦃rest : Text⦄, Scan t later rest →
    Scan (lead ++ t) (words ++ later) rest

namespace Begins

theorem append {front back : Text} {words₁ words₂ : List Word} (first : Begins front words₁)
    (second : Begins back words₂) : Begins (front ++ back) (words₁ ++ words₂) := by
  intro t later rest scan
  rw [List.append_assoc, List.append_assoc]
  exact first (second scan)

theorem space : Begins [.char ' '] [] := fun _ _ _ scan => .gap (by decide) scan

theorem alone {g : Glyph} (listed : g ∈ Text.ofString ",\x7b\x7d()") :
    Begins [g] [(Head.glyphKind g, [g])] := by
  have solid : ∀ g ∈ Text.ofString ",\x7b\x7d()", Lexeme.isGap g = false := by decide
  exact fun _ _ _ scan => .word (by simpa using solid g listed) (Head.form_alone listed _) scan

theorem comma : Begins [.char ','] [Word.comma] := alone (by decide)

theorem openBrace : Begins [.char '\x7b'] [Word.openBrace] := alone (by decide)

theorem closeBrace : Begins [.char '\x7d'] [Word.closeBrace] := alone (by decide)

theorem closeParen : Begins [.char ')'] [Word.closeParen] := alone (by decide)

theorem scan {lead rest : Text} {words : List Word} (begins : Begins lead words) :
    Scan lead words rest := by
  have whole := begins (show Scan [] [] rest from .nil)
  rwa [List.append_nil, List.append_nil] at whole

end Begins

/-- The letters and underscores of which tags and the names of safe functions consist. -/
def Head.IsName (name : Text) : Prop := name ≠ [] ∧ ∀ g ∈ name, isWordStart g = true

theorem Head.form_name {name rest : Text} (named : IsName name)
    (ends : ∀ g ∈ rest.head?, isWordPart g = false)
    (bare : ∀ quote : Quote, name ∉ quote.encodings) : Form .ident name rest := by
  obtain ⟨nonempty, letters⟩ := named
  cases name with
  | nil => exact absurd rfl nonempty
  | cons g name =>
      refine .ident (letters g List.mem_cons_self) (fun p member => ?_) ends fun quote _ => bare quote
      have start := letters p (List.mem_cons_of_mem g member)
      cases p with
      | raw byte => cases start
      | char c => simp_all [isWordStart, isWordPart, Glyph.satisfies]

theorem Family.tag_name (family : Family) : Head.IsName family.tag ∧
    ∀ quote : Quote, family.tag ∉ quote.encodings := by
  refine ⟨?_, fun quote => ?_⟩
  · cases family <;> exact ⟨by decide, by decide⟩
  · cases family <;> cases quote <;> decide

/-- The functions of the table are named by letters, and so are the safe ones. -/
theorem PrinterTable.standard_names {identifier : Text} {printer : Printer}
    (listed : standard.find? identifier = some printer) :
    (∃ g later, identifier = g :: later ∧ Head.isAlpha g = true) ∧ Head.IsName printer.safeName ∧
      ∀ quote : Quote, printer.safeName ∉ quote.encodings := by
  have starts : ∀ entry ∈ standard, ∃ g ∈ entry.1.head?, Head.isAlpha g = true := by decide
  have letters : ∀ entry ∈ standard, entry.2.safeName ≠ [] ∧
      ∀ g ∈ entry.2.safeName, Head.isWordStart g = true := by
    decide
  have bare : ∀ entry ∈ standard, entry.2.safeName ∉ Quote.double.encodings ∧
      entry.2.safeName ∉ Quote.single.encodings := by
    decide
  obtain ⟨front, back, parts, _⟩ := List.lookup_eq_some_iff.1 listed
  have member : (identifier, printer) ∈ standard := List.mem_reverse.1 (by simp [parts])
  obtain ⟨g, first, letter⟩ := starts _ member
  refine ⟨⟨g, identifier.tail, (List.cons_head?_tail first).symm, letter⟩, letters _ member, ?_⟩
  intro quote
  cases quote with
  | double => exact (bare _ member).1
  | single => exact (bare _ member).2

/-- A segment between quotes is read as literals, whatever follows it. -/
theorem exists_quoted {segment : Text} {bodies : List Text} (nonempty : bodies ≠ [])
    (enclosed : ∀ body ∈ bodies, Enclosed body)
    (spelled : segment = (Text.ofString "\" \"").intercalate bodies) :
    ∃ words, Quoted segment words ∧ Begins (.char '"' :: (segment ++ [.char '"'])) words := by
  refine ⟨_, ⟨bodies, nonempty, spelled ▸ FormatString.readsAs_intercalate nonempty enclosed, rfl⟩, ?_⟩
  intro t later rest scan
  have chain := FormatString.literalLexemes_chain Lexeme.gaps_nil enclosed (t ++ rest)
  have front := Scan.of_chain chain
  rw [FormatString.flatten_literalLexemes [] nonempty, ← spelled] at front
  have words : (FormatString.literalLexemes [] bodies).map Lexeme.word = _ :=
    FormatString.literalLexemes_words [] bodies
  rw [words] at front
  exact front.append scan

/-- What stands between the arguments in front of the format and the first segment. -/
theorem begins_count (n : Nat) {segment : Text} {words : List Word}
    (quoted : Begins (.char '"' :: (segment ++ [.char '"'])) words) :
    Begins (Text.ofNat n ++ ", \x7b \"" ++ segment ++ "\"")
      ([(.other, Text.ofNat n), Word.comma, Word.openBrace] ++ words) := by
  intro t later rest scan
  have back := (Begins.comma.append <| Begins.space.append <| Begins.openBrace.append <|
    Begins.space.append quoted) scan
  have front : Scan (Text.ofNat n) [(.other, Text.ofNat n)] (.char ',' :: ([.char ' ', .char '\x7b',
      .char ' ', .char '"'] ++ (segment ++ .char '"' :: t) ++ rest)) := scan_ofNat n (by decide)
  have whole := Scan.append (by simpa using front) back
  simpa [Text.ofString] using whole

theorem begins_tag (family : Family) {segment : Text} {words : List Word}
    (quoted : Begins (.char '"' :: (segment ++ [.char '"'])) words) :
    Begins (", " ++ family.tag ++ " \x7d, \"" ++ segment ++ "\"")
      ([Word.comma, (.ident, family.tag), Word.closeBrace, Word.comma] ++ words) := by
  intro t later rest scan
  have back := (Begins.space.append <| Begins.closeBrace.append <| Begins.comma.append <|
    Begins.space.append quoted) scan
  obtain ⟨named, bare⟩ := family.tag_name
  have front := Begins.comma <| Begins.space <|
    Scan.word (by cases family <;> decide)
      (Head.form_name named (by simp; decide) bare) back
  simpa [Text.ofString] using front

theorem begins_argument : Begins (Text.ofString ", \x7b ") [Word.comma, Word.openBrace] :=
  Begins.comma.append <| Begins.space.append <| Begins.openBrace.append Begins.space

theorem begins_end : Begins (Text.ofString " \x7d)") [Word.closeBrace, Word.closeParen] :=
  Begins.space.append <| Begins.closeBrace.append Begins.closeParen

end FormatLint
