import FormatLint.Format.FormatString
import FormatLint.Proofs.Revision.Revises

/-!
The types that are written out in casts, and what is inserted to cast to them. All types consist of
letters, underscores, blanks and asterisks, and any such text is read as names and punctuators.
-/

namespace FormatLint.CType

/-- The glyphs of names, of asterisks and of what stands between them. -/
def isTypeGlyph (g : Glyph) : Bool := Head.isWordStart g || g = .char '*' || Lexeme.isGap g

theorem isTypeGlyph_mark (quote : Quote) : isTypeGlyph quote.mark = false := by
  cases quote <;> decide

theorem read_type {t : Text} (glyphs : ∀ g ∈ t, isTypeGlyph g = true)
    (begins : ∀ g ∈ t.head?, Lexeme.isGap g = false) (nonempty : t ≠ []) :
    ∃ kind word rest, Head.read t = .lexeme kind word rest ∧ kind ∈ [.ident, .punct] := by
  cases t with
  | nil => exact absurd rfl nonempty
  | cons g rest =>
      have inside := glyphs g List.mem_cons_self
      have solid : Lexeme.isGap g = false := begins g rfl
      by_cases start : Head.isWordStart g = true
      · have form : Head.Form .ident (g :: rest.takeWhile Head.isWordPart)
            (rest.dropWhile Head.isWordPart) := by
          refine .ident start ?_ ?_ ?_
          · exact fun p member => List.all_eq_true.1 List.all_takeWhile p member
          · intro p first
            have stops := List.head?_dropWhile_not Head.isWordPart rest
            rw [Option.mem_def.1 first] at stops
            simpa using stops
          · intro quote first
            have member := (List.dropWhile_sublist _).subset (List.mem_of_mem_head? first)
            have glyph := glyphs quote.mark (List.mem_cons_of_mem g member)
            rw [isTypeGlyph_mark] at glyph
            cases glyph
        have read := Head.read_of_form form
        rw [List.cons_append, List.takeWhile_append_dropWhile] at read
        exact ⟨_, _, _, read, by simp⟩
      · have star : g = .char '*' := by
          simpa [isTypeGlyph, start, solid] using inside
        subst star
        have plain : Head.number? (.char '*' :: rest) = none :=
          Head.number?_eq_none.2 ⟨by decide, fun period => absurd period (by decide)⟩
        have read : Head.read (.char '*' :: rest) = Head.symbol (.char '*') rest := by
          have unquoted : Quote.ofMark? (.char '*') = none := by decide
          have noWord : Head.isWordStart (.char '*') = false := by decide
          simp [Head.read, unquoted, noWord, plain]
        rw [read]
        unfold Head.symbol
        split
        · exact ⟨_, _, _, rfl, by simp⟩
        · exact ⟨_, _, _, rfl, by decide⟩

theorem ofText_type {t : Text} (glyphs : ∀ g ∈ t, isTypeGlyph g = true) :
    ∃ lexemes, Lexeme.ofText t = .ok lexemes ∧
      ∀ l ∈ lexemes, l.kind ∈ [.ident, .punct, .eof] := by
  have solid (t : Text) : ∀ g ∈ (t.dropWhile Lexeme.isGap).head?, Lexeme.isGap g = false := by
    intro g first
    have stops := List.head?_dropWhile_not Lexeme.isGap t
    rw [Option.mem_def.1 first] at stops
    simpa using stops
  have inner {t : Text} (glyphs : ∀ g ∈ t, isTypeGlyph g = true) :
      ∀ g ∈ t.dropWhile Lexeme.isGap, isTypeGlyph g = true :=
    fun g member => glyphs g ((List.dropWhile_sublist _).subset member)
  fun_induction Lexeme.ofText t with
  | case1 => exact ⟨_, rfl, by simp⟩
  | case2 text blanks form body unclosed =>
      have nonempty : text.dropWhile Lexeme.isGap ≠ [] := by
        intro empty
        rw [empty] at unclosed
        cases unclosed
      obtain ⟨_, _, _, read, _⟩ := read_type (inner glyphs) (solid text) nonempty
      rw [unclosed] at read
      cases read
  | case3 text blanks kind word rest found later readLater ih =>
      have nonempty : text.dropWhile Lexeme.isGap ≠ [] := by
        intro empty
        rw [empty] at found
        cases found
      obtain ⟨_, _, _, read, named⟩ := read_type (inner glyphs) (solid text) nonempty
      rw [found] at read
      cases read
      have whole := (Head.read_lexeme found).1
      obtain ⟨lexemes, cut, kinds⟩ := ih fun g member => inner glyphs g (by simp [whole, member])
      rw [readLater] at cut
      cases cut
      refine ⟨_, rfl, ?_⟩
      intro l member
      rcases List.mem_cons.1 member with rfl | member
      · rcases List.mem_cons.1 named with rfl | other
        · simp
        · rw [List.mem_singleton.1 other]
          simp
      · exact kinds l member
  | case4 text blanks kind word rest found fault failed ih =>
      have whole := (Head.read_lexeme found).1
      obtain ⟨lexemes, cut, _⟩ := ih fun g member => inner glyphs g (by simp [whole, member])
      rw [failed] at cut
      cases cut

def words (cType : Text) : List Word :=
  match Lexeme.ofText cType with
  | .ok lexemes => lexemes.dropLast.map Lexeme.word
  | .error _ => []

/-- A type is read as a chain of its words, with a gap behind it. -/
theorem exists_chain {t : Text} (glyphs : ∀ g ∈ t, isTypeGlyph g = true) :
    ∃ chain blanks, t = Lexeme.flatten chain ++ blanks ∧ Lexeme.Chain chain blanks ∧
      (∀ g ∈ blanks, Lexeme.isGap g = true) ∧ words t = chain.map Lexeme.word ∧
      ∀ l ∈ chain, l.kind ∈ [.ident, .punct] := by
  obtain ⟨lexemes, cut, kinds⟩ := ofText_type glyphs
  obtain ⟨chain, blanks, rfl, whole, chained, blank⟩ := Lexeme.ofText_eq_ok_iff.1 cut
  refine ⟨chain, blanks, whole, chained, blank, by simp [words, cut], ?_⟩
  intro l member
  have kind := kinds l (List.mem_append_left _ member)
  simpa [chained.kind_ne_eof l member] using kind

theorem words_kinds {t : Text} (glyphs : ∀ g ∈ t, isTypeGlyph g = true) :
    ∀ word ∈ words t, word.1 ∈ [.ident, .punct] := by
  obtain ⟨chain, _, _, _, _, same, kinds⟩ := exists_chain glyphs
  intro word member
  rw [same] at member
  obtain ⟨l, inside, rfl⟩ := List.mem_map.1 member
  exact kinds l inside

theorem scan_chain {chain : List Lexeme} {blanks : Text} (chained : Lexeme.Chain chain blanks)
    (blank : ∀ g ∈ blanks, Lexeme.isGap g = true)
    (code : ∀ last ∈ chain.getLast?, last.kind ≠ .comment) {g : Glyph}
    (bounds : Head.isBoundary g = true) (rest : Text) :
    Scan (Lexeme.flatten chain ++ blanks) (chain.map Lexeme.word) (g :: rest) := by
  have next : ∀ last ∈ chain.getLast?,
      Head.Succession last.kind blanks (blanks ++ g :: rest) := by
    intro last found
    cases blanks with
    | nil => exact .boundary (code last found) bounds
    | cons first blanks =>
        refine .boundary (code last found) ?_
        simp [Head.isBoundary, blank first List.mem_cons_self]
  have front := Scan.of_chain (chained.succeed next).1
  have behind : Scan (blanks ++ []) [] (g :: rest) := .gaps blank .nil
  rw [List.append_nil] at behind
  have whole := front.append behind
  rwa [List.append_nil] at whole

/-- A type is read as its words in front of whatever it is set apart from. -/
theorem scan_type {t : Text} (glyphs : ∀ g ∈ t, isTypeGlyph g = true) {g : Glyph}
    (bounds : Head.isBoundary g = true) (rest : Text) : Scan t (words t) (g :: rest) := by
  obtain ⟨chain, blanks, rfl, chained, blank, same, kinds⟩ := exists_chain glyphs
  rw [same]
  refine scan_chain chained blank (fun last found comment => ?_) bounds rest
  have kind := kinds last (List.mem_of_getLast? found)
  simp [comment] at kind

theorem form_opening (rest : Text) : Head.Form .openParen [.char '('] rest :=
  have alone : Head.Form .openParen [.char '('] [] :=
    Head.read_iff_form.1 rfl
  alone.delimited rest (.inl (by simp))

theorem form_closing (rest : Text) : Head.Form .closeParen [.char ')'] rest :=
  have alone : Head.Form .closeParen [.char ')'] [] :=
    Head.read_iff_form.1 rfl
  alone.delimited rest (.inl (by simp))

/-- What is inserted in front of an argument to cast it to the type. -/
def opening (cType : Text) : Insertion :=
  ⟨"(" ++ cType ++ ") (", [(TokenKind.openParen, Text.ofString "(")] ++ words cType ++
    [(TokenKind.closeParen, Text.ofString ")"), (TokenKind.openParen, Text.ofString "(")]⟩

/-- What is inserted behind an argument that is cast. -/
def closing : Insertion := ⟨")", [(TokenKind.closeParen, Text.ofString ")")]⟩

theorem sound_closing : closing.Sound :=
  ⟨⟨.char ')', [], rfl, by decide⟩, fun rest => .single (by decide) (form_closing rest)⟩

theorem sound_opening {cType : Text} (glyphs : ∀ g ∈ cType, isTypeGlyph g = true) :
    (opening cType).Sound := by
  have shape : (opening cType).text =
      [.char '('] ++ (cType ++ ([.char ')'] ++ ([.char ' '] ++ [.char '(']))) := by
    simp [opening, Text.ofString]
  refine ⟨⟨.char '(', _, shape, by decide⟩, fun rest => ?_⟩
  have space : ∀ g ∈ [Glyph.char ' '], Lexeme.isGap g = true := by decide
  have gap := Scan.gaps space (.single (by decide) (form_opening rest))
  have back := (Scan.single (by decide) (form_closing _)).append gap
  have middle := (scan_type glyphs (by decide) _).append back
  have whole := (Scan.single (by decide) (form_opening _)).append middle
  rw [shape]
  simpa [opening, Text.ofString] using whole

theorem conversion_glyphs (c : Conversion) (length : Option LengthModifier) :
    ∀ g ∈ c.cType length, isTypeGlyph g = true := by
  cases c <;> rcases length with _ | length <;> try cases length
  all_goals decide

/-- What is demanded of an argument is a number, or what a conversion reads. -/
theorem demand_types {P : Text → Prop} (integer : P "int")
    (conversions : ∀ (c : Conversion) (length : Option LengthModifier), P (c.cType length))
    {d : Demand} {cType : Text} (demanded : d.cType? = some cType) : P cType := by
  unfold Demand.cType? at demanded
  split at demanded
  · unfold Directive.cType? at demanded
    obtain ⟨c, _, rfl⟩ := Option.map_eq_some_iff.1 demanded
    exact conversions c d.directive.length
  · cases demanded
    exact integer

theorem demand_glyphs {d : Demand} {cType : Text} (demanded : d.cType? = some cType) :
    ∀ g ∈ cType, isTypeGlyph g = true := by
  have integer : ∀ g ∈ Text.ofString "int", isTypeGlyph g = true := by decide
  exact demand_types (P := fun cType => ∀ g ∈ cType, isTypeGlyph g = true) integer
    conversion_glyphs demanded

end FormatLint.CType
