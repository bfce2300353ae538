import FormatLint.Proofs.Format.Tiling

/-!
Which directives a format has. The directives of C are a regular language;
`FormatString.specifiers_recognized` says that the reader finds a conversion exactly where a text of
this language begins, and takes all of it and nothing else.
-/

namespace FormatLint

open scoped Computability

namespace Directive

def oneOf (member : Glyph → Bool) : Language Glyph := {t | ∃ g, member g = true ∧ t = [g]}

def modifiers : Language Glyph :=
  {t | t ∈ ["hh", "ll", "h", "l", "j", "z", "t", "L", "q"].map Text.ofString}

/-- The directives whose numerals are written in a class of digits. -/
def grammar (digit : Glyph → Bool) : Language Glyph :=
  {Text.ofString "%"} * ((oneOf (· ∈ Text.ofString "-+ #0'"))∗ *
    ((1 + ({Text.ofString "*"} + oneOf digit * (oneOf digit)∗)) *
      ((1 + {Text.ofString "."} * ({Text.ofString "*"} + (oneOf digit)∗)) *
        ((1 + modifiers) * oneOf (· ∈ Text.ofString "diuoxXfFeEgGaAcspn")))))

/-- The directive belongs to the grammar, with numerals of the class of digits. -/
structure Spells (digit : Glyph → Bool) (d : Directive) : Prop where
  flags : ∀ g ∈ d.flags, isFlag g = true
  width : ∀ numeral, d.width = some (.digits numeral) →
    numeral ≠ [] ∧ ∀ g ∈ numeral, digit g = true
  precision : ∀ numeral, d.precision = some (.digits numeral) → ∀ g ∈ numeral, digit g = true
  letter : d.conversion?.isSome = true

theorem spells_isDigit_iff {d : Directive} : d.Spells Glyph.isDigit ↔ d.Valid :=
  ⟨fun ⟨flags, width, precision, letter⟩ => ⟨flags, width, precision, letter⟩,
    fun ⟨flags, width, precision, letter⟩ => ⟨flags, width, precision, letter⟩⟩

variable {digit : Glyph → Bool} {t : Text}

theorem mem_oneOf_kstar {member : Glyph → Bool} :
    t ∈ (oneOf member)∗ ↔ ∀ g ∈ t, member g = true := by
  rw [Language.mem_kstar]
  constructor
  · rintro ⟨words, rfl, single⟩ g inside
    obtain ⟨word, listed, here⟩ := List.mem_flatten.1 inside
    obtain ⟨other, belongs, rfl⟩ := single word listed
    rwa [List.mem_singleton.1 here]
  · intro all
    refine ⟨t.map fun g => [g], by simp [← List.flatMap_def], fun word listed => ?_⟩
    obtain ⟨g, inside, rfl⟩ := List.mem_map.1 listed
    exact ⟨g, all g inside, rfl⟩

theorem mem_numeral_iff : t ∈ oneOf digit * (oneOf digit)∗ ↔ t ≠ [] ∧ ∀ g ∈ t, digit g = true := by
  rw [Language.mem_mul]
  constructor
  · rintro ⟨_, ⟨g, first, rfl⟩, rest, later, rfl⟩
    refine ⟨by simp, fun other inside => ?_⟩
    rcases List.mem_cons.1 inside with rfl | inside
    · exact first
    · exact mem_oneOf_kstar.1 later other inside
  · rintro ⟨nonempty, all⟩
    obtain ⟨g, rest, rfl⟩ := List.exists_cons_of_ne_nil nonempty
    exact ⟨[g], ⟨g, all g List.mem_cons_self, rfl⟩, rest,
      mem_oneOf_kstar.2 fun other inside => all other (List.mem_cons_of_mem g inside), rfl⟩

theorem mem_width_iff :
    t ∈ 1 + ({Text.ofString "*"} + oneOf digit * (oneOf digit)∗) ↔
      ∃ width : Option Amount, (∀ numeral, width = some (.digits numeral) →
        numeral ≠ [] ∧ ∀ g ∈ numeral, digit g = true) ∧ width.elim [] Amount.text = t := by
  rw [Language.mem_add, Language.mem_add, mem_numeral_iff, Language.mem_one]
  constructor
  · rintro (rfl | rfl | numeral)
    · exact ⟨none, by simp, rfl⟩
    · exact ⟨some .star, by simp, rfl⟩
    · refine ⟨some (.digits t), fun other same => ?_, rfl⟩
      cases same
      exact numeral
  · rintro ⟨width, numerals, rfl⟩
    rcases width with _ | _ | numeral
    · exact .inl rfl
    · exact .inr (.inl rfl)
    · exact .inr (.inr (numerals numeral rfl))

theorem mem_precision_iff :
    t ∈ 1 + {Text.ofString "."} * ({Text.ofString "*"} + (oneOf digit)∗) ↔
      ∃ precision : Option Amount, (∀ numeral, precision = some (.digits numeral) →
        ∀ g ∈ numeral, digit g = true) ∧
          precision.elim [] (fun amount => .char '.' :: amount.text) = t := by
  rw [Language.mem_add, Language.mem_mul, Language.mem_one]
  constructor
  · rintro (rfl | ⟨_, rfl, amount, read, rfl⟩)
    · exact ⟨none, by simp, rfl⟩
    · rw [Language.mem_add, mem_oneOf_kstar] at read
      rcases read with rfl | numeral
      · exact ⟨some .star, by simp, rfl⟩
      · refine ⟨some (.digits amount), fun other same => ?_, rfl⟩
        cases same
        exact numeral
  · rintro ⟨precision, numerals, rfl⟩
    rcases precision with _ | _ | numeral
    · exact .inl rfl
    · exact .inr ⟨_, rfl, _, .inl rfl, rfl⟩
    · exact .inr ⟨_, rfl, numeral, .inr (mem_oneOf_kstar.2 (numerals numeral rfl)), rfl⟩

theorem mem_length_iff :
    t ∈ 1 + modifiers ↔
      ∃ length : Option LengthModifier, length.elim [] LengthModifier.text = t := by
  rw [Language.mem_add, Language.mem_one]
  constructor
  · rintro (rfl | listed)
    · exact ⟨none, rfl⟩
    · have all : ∀ word ∈ ["hh", "ll", "h", "l", "j", "z", "t", "L", "q"].map Text.ofString,
          ∃ modifier ∈ LengthModifier.all, modifier.text = word := by decide
      obtain ⟨modifier, _, rfl⟩ := all t listed
      exact ⟨some modifier, rfl⟩
  · rintro ⟨length, rfl⟩
    cases length with
    | none => exact .inl rfl
    | some modifier =>
        have all : ∀ modifier ∈ LengthModifier.all, modifier.text ∈
            ["hh", "ll", "h", "l", "j", "z", "t", "L", "q"].map Text.ofString := by decide
        exact .inr (all modifier (by cases modifier <;> decide))

theorem mem_letter_iff {letters : Text} : t ∈ oneOf (· ∈ letters) ↔ ∃ g ∈ letters, [g] = t := by
  constructor
  · rintro ⟨g, listed, rfl⟩
    exact ⟨g, by simpa using listed, rfl⟩
  · rintro ⟨g, listed, rfl⟩
    exact ⟨g, by simpa using listed, rfl⟩

/-- The language consists of the directives of the grammar as they are written. -/
theorem mem_grammar_iff : t ∈ grammar digit ↔ ∃ d : Directive, d.Spells digit ∧ d.text = t := by
  simp only [grammar, Language.mem_mul, mem_width_iff, mem_precision_iff, mem_length_iff,
    mem_letter_iff, mem_oneOf_kstar]
  constructor
  · rintro ⟨_, rfl, _, ⟨flags, isFlags, _, ⟨_, ⟨width, widthDigits, rfl⟩, _,
      ⟨_, ⟨precision, precisionDigits, rfl⟩, _, ⟨_, ⟨length, rfl⟩, _, ⟨letter, listed, rfl⟩, rfl⟩,
        rfl⟩, rfl⟩, rfl⟩, rfl⟩
    exact ⟨⟨flags, width, precision, length, some letter⟩,
      ⟨isFlags, widthDigits, precisionDigits, ofLetter?_isSome_iff.2 listed⟩, rfl⟩
  · rintro ⟨⟨flags, width, precision, length, letter⟩,
      ⟨isFlags, widthDigits, precisionDigits, converts⟩, rfl⟩
    cases letter with
    | none => simp [conversion?] at converts
    | some letter =>
        exact ⟨_, rfl, _, ⟨flags, isFlags, _, ⟨_, ⟨width, widthDigits, rfl⟩, _,
          ⟨_, ⟨precision, precisionDigits, rfl⟩, _, ⟨_, ⟨length, rfl⟩, _,
            ⟨letter, ofLetter?_isSome_iff.1 converts, rfl⟩, rfl⟩, rfl⟩, rfl⟩, rfl⟩, rfl⟩

end Directive

namespace Piece

theorem exists_of_consText_eq {glyphs : Text} {pieces before after : List Piece} {d : Directive}
    (whole : consText glyphs pieces = before ++ .directive d :: after) :
    ∃ front, pieces = front ++ .directive d :: after := by
  unfold consText at whole
  cases before with
  | nil => split at whole <;> cases (List.cons.inj whole).1
  | cons first before =>
      split at whole
      · rename_i text later
        exact ⟨.text text :: before, congrArg (.text text :: ·) (List.cons.inj whole).2⟩
      · exact ⟨before, (List.cons.inj whole).2⟩

/-- A directive among the pieces of a text is what is read behind a percent sign that no other one
follows. -/
theorem exists_read {t : Text} {before after : List Piece} {d : Directive}
    (pieces : ofText t = before ++ .directive d :: after) :
    ∃ rest, rest.head? ≠ some (.char '%') ∧ Directive.read rest = (d, flatten after) := by
  fun_induction ofText t generalizing before with
  | case1 => simp at pieces
  | case2 =>
      cases before with
      | nil =>
          obtain ⟨read, rfl⟩ := List.cons.inj pieces
          cases read
          exact ⟨[], by simp, rfl⟩
      | cons first before => simp at pieces
  | case3 g =>
      cases before with
      | nil => cases (List.cons.inj pieces).1
      | cons first before => simp at pieces
  | case4 next rest ih =>
      obtain ⟨front, later⟩ := exists_of_consText_eq pieces
      exact ih later
  | case5 g next rest _ _ ih =>
      obtain ⟨front, later⟩ := exists_of_consText_eq pieces
      exact ih later
  | case6 g rest _ _ ih =>
      cases before with
      | nil => cases (List.cons.inj pieces).1
      | cons first before => exact ih (List.cons.inj pieces).2
  | case7 g next rest _ _ noPercent reading =>
      rename_i ih
      cases before with
      | nil =>
          obtain ⟨read, later⟩ := List.cons.inj pieces
          cases read
          refine ⟨next :: rest, by simpa using noPercent, Prod.ext rfl ?_⟩
          rw [← later, flatten_ofText]
      | cons first before => exact ih (List.cons.inj pieces).2

end Piece

namespace Directive

variable {rest behind : Text} {d : Directive}

/-- The directive stands at the beginning of the text. It has a conversion exactly if a directive of
the language stands there, and then it is that one. Its flags go as far as they can, and only a
backslash or the end of the text keeps a letter from it. -/
structure Begins (d : Directive) (t : Text) : Prop where
  noPercent : ¬ Text.ofString "%%" <+: t
  text : d.text <+: t
  valid : d.isInvalid = false ↔ ∃ raw, raw <+: t ∧ raw ∈ grammar Glyph.isDigit
  unique : ∀ raw, raw <+: t → raw ∈ grammar Glyph.isDigit → raw = d.text
  fields : d.text = .char '%' :: (d.flags ++ (d.width.elim [] Amount.text ++
    (d.precision.elim [] (fun amount => .char '.' :: amount.text) ++
      (d.length.elim [] LengthModifier.text ++ d.letter.toList))))
  flags : ∀ g ∈ d.flags, g ∈ Text.ofString "-+ #0'"
  maximal : ∀ g ∈ (t.drop (1 + d.flags.length)).head?, g ∉ Text.ofString "-+ #0'"
  width : ∀ numeral, d.width = some (.digits numeral) →
    numeral ≠ [] ∧ ∀ g ∈ numeral, g.isDigit = true
  precision : ∀ numeral, d.precision = some (.digits numeral) → ∀ g ∈ numeral, g.isDigit = true
  letter : d.letter = none ↔
    ∀ g ∈ (t.drop { d with letter := none }.text.length).head?, g = .char '\\'

theorem eq_text_of_grammar (read : Directive.read rest = (d, behind)) {raw : Text}
    (begins : raw <+: .char '%' :: rest) (spelled : raw ∈ grammar Glyph.isDigit) :
    d.isInvalid = false ∧ raw = d.text := by
  obtain ⟨written, spells, rfl⟩ := mem_grammar_iff.1 spelled
  have valid := spells_isDigit_iff.1 spells
  obtain ⟨more, whole, _, _⟩ := text_valid valid
  obtain ⟨back, parts⟩ := begins
  have same : rest = written.text.tail ++ back := by
    rw [whole] at parts ⊢
    exact (List.cons.inj parts).2.symm
  -- The reader takes the written directive whole, though perhaps with other fields: zeros of its
  -- width may be read as flags.
  obtain ⟨other, again, converts, _⟩ := read_valid valid back
  rw [← same, read] at again
  obtain ⟨rfl, rfl⟩ := Prod.mk.inj again
  constructor
  · have converted := valid.letter
    rw [← converts] at converted
    simpa [isInvalid] using converted
  · have text := read_text rest
    rw [read] at text
    exact List.append_cancel_right (parts.trans text.symm)

theorem readLetter_eq_none_iff {t : Text} :
    (readLetter t).1 = none ↔ ∀ g ∈ t.head?, g = .char '\\' := by
  unfold readLetter
  split
  · simp
  · split <;> simp_all

theorem letter_eq_none_iff (read : Directive.read rest = (d, behind)) :
    d.letter = none ↔ ∀ g ∈ ((.char '%' :: rest).drop { d with letter := none }.text.length).head?,
      g = .char '\\' := by
  obtain ⟨ending, lettered⟩ : ∃ ending, readLetter ending = (d.letter, behind) := by
    obtain ⟨rfl, rfl⟩ := Prod.mk.inj read.symm
    exact ⟨_, rfl⟩
  have front : d.text = { d with letter := none }.text ++ d.letter.toList := by simp [text]
  have whole := read_text rest
  have parts := readLetter_text ending
  rw [read, front, List.append_assoc] at whole
  rw [lettered] at parts
  rw [← whole, List.drop_left, parts, ← readLetter_eq_none_iff, lettered]

theorem begins_of_read (noPercent : rest.head? ≠ some (.char '%'))
    (read : Directive.read rest = (d, behind)) : d.Begins (.char '%' :: rest) where
  noPercent := by
    rintro ⟨back, whole⟩
    refine noPercent ?_
    rw [← (List.cons.inj whole).2]
    rfl
  text := by
    have whole := read_text rest
    rw [read] at whole
    exact ⟨behind, whole⟩
  valid := by
    constructor
    · intro accepted
      have whole := read_text rest
      rw [read] at whole
      have valid := valid_of_read (t := rest) (by rw [read]; exact accepted)
      rw [read] at valid
      exact ⟨d.text, ⟨behind, whole⟩, mem_grammar_iff.2 ⟨d, spells_isDigit_iff.2 valid, rfl⟩⟩
    · rintro ⟨raw, begins, spelled⟩
      exact (eq_text_of_grammar read begins spelled).1
  unique raw begins spelled := (eq_text_of_grammar read begins spelled).2
  fields := rfl
  flags := by
    obtain ⟨rfl, rfl⟩ := Prod.mk.inj read.symm
    exact fun g member => of_decide_eq_true (List.all_eq_true.1 List.all_takeWhile g member)
  maximal := by
    obtain ⟨rfl, rfl⟩ := Prod.mk.inj read.symm
    have behind := congrArg (List.drop (rest.takeWhile isFlag).length)
      (List.takeWhile_append_dropWhile (p := isFlag) (l := rest))
    rw [List.drop_left] at behind
    intro g first listed
    rw [Nat.add_comm, List.drop_succ_cons] at first
    change g ∈ (rest.drop (rest.takeWhile isFlag).length).head? at first
    have stopped := List.head?_dropWhile_not isFlag rest
    rw [behind, first] at stopped
    simp [isFlag, listed] at stopped
  width := by
    obtain ⟨rfl, rfl⟩ := Prod.mk.inj read.symm
    exact fun numeral => readWidth_digits
  precision := by
    obtain ⟨rfl, rfl⟩ := Prod.mk.inj read.symm
    exact fun numeral => readPrecision_digits
  letter := letter_eq_none_iff read

end Directive

/-- The roles are those for which a directive reads arguments, in order: one for every asterisk, and
then the value. -/
structure Directive.Asks (d : Directive) (roles : List Role) : Prop where
  order : roles.Sublist [.width, .precision, .value]
  width : .width ∈ roles ↔ d.width = some .star
  precision : .precision ∈ roles ↔ d.precision = some .star
  value : .value ∈ roles

theorem Demand.exists_roles (d : Directive) (span : Span) :
    ∃ roles, d.Asks roles ∧ Demand.ofDirective d span = roles.map fun role => ⟨d, span, role⟩ := by
  unfold ofDirective
  split <;> rename_i width <;> split <;> rename_i precision
  · exact ⟨[.width, .precision, .value], ⟨by decide, by simp [width], by simp [precision],
      by decide⟩, rfl⟩
  · exact ⟨[.width, .value], ⟨by decide, by simp [width], by simp [precision], by decide⟩, rfl⟩
  · exact ⟨[.precision, .value], ⟨by decide, by simp [width], by simp [precision], by decide⟩, rfl⟩
  · exact ⟨[.value], ⟨by decide, by simp [width], by simp [precision], by decide⟩, rfl⟩

namespace FormatString

variable {a : Argument} {f : FormatString}

theorem begins_of_mem (spelled : ofArgument? a = some f) {p : PlacedPiece} (member : p ∈ f.parts)
    {d : Directive} (directive : p.piece = .directive d) : d.Begins (f.text.drop p.start) := by
  obtain ⟨before, after, pieces, whole, start, _⟩ := exists_around (parts_eq_place spelled) member
  rw [directive] at pieces whole
  obtain ⟨rest, noPercent, read⟩ := Piece.exists_read pieces
  have parts := Directive.read_text rest
  rw [read] at parts
  rw [start, whole, List.drop_left]
  change d.Begins (d.text ++ Piece.flatten after)
  rw [parts]
  exact Directive.begins_of_read noPercent read

/-- Every specifier but two percent signs is a directive that is read where it stands, and demands
what its asterisks and its conversion do. -/
theorem specifiers_recognized (spelled : ofArgument? a = some f) :
    ∀ p ∈ f.parts, p.piece.isText = false → p.piece.source ≠ "%%" →
      ∃ d, p.piece = .directive d ∧ d.text = f.text.extract p.start p.stop ∧
        d.Begins (f.text.drop p.start) ∧
        ∃ roles, d.Asks roles ∧
          Demand.ofDirective d p.span = roles.map fun role => ⟨d, p.span, role⟩ := by
  intro p member specifier other
  cases directive : p.piece with
  | text glyphs =>
      rw [directive] at specifier
      cases specifier
  | percent =>
      rw [directive] at other
      exact absurd rfl other
  | directive d =>
      have slice := slice_eq_source (parts_eq_place spelled) member
      rw [directive] at slice
      exact ⟨d, rfl, slice, begins_of_mem spelled member directive,
        Demand.exists_roles d p.span⟩

/-- A literal with a directive of all fields, one whose letter is unknown, and one that ends before
its letter. -/
def fullDirective : List Lexeme := [⟨[], .string, "\"%-08.*hhd%%%hy%+\\n\""⟩]

theorem specifiers_recognized_fullDirective :
    ∃ (a : Argument) (f : FormatString), ofArgument? a = some f ∧ f.text = "%-08.*hhd%%%hy%+\\n" ∧
      (f.parts.filter (·.piece.isInvalid)).map (·.piece.source) =
        [Text.ofString "%hy", Text.ofString "%+"] ∧
      ∀ p ∈ f.parts, p.piece.isText = false → p.piece.source ≠ "%%" →
        ∃ d, p.piece = .directive d ∧ d.text = f.text.extract p.start p.stop ∧
          d.Begins (f.text.drop p.start) ∧
          ∃ roles, d.Asks roles ∧
            Demand.ofDirective d p.span = roles.map fun role => ⟨d, p.span, role⟩ :=
  ⟨⟨Token.place [] .first fullDirective, by decide⟩, _, rfl, rfl, by cbv,
    @specifiers_recognized ⟨Token.place [] .first fullDirective, by decide⟩ _ rfl⟩

end FormatString

/-- The text has no digits but those of ASCII. -/
def Text.AsciiDigits (t : Text) : Prop := ∀ g ∈ t, g.isDigit = true → Head.isAsciiDigit g = true

namespace Directive

theorem isDigit_of_isAsciiDigit {g : Glyph} (ascii : Head.isAsciiDigit g = true) :
    g.isDigit = true := by
  cases g with
  | char c => exact isDigit_of_isDecimal (isDecimal_of_ascii ascii)
  | raw byte => cases ascii

/-- A directive belongs to the grammar in ASCII digits exactly if it does in the digits of all
scripts, and has none that is not ASCII. -/
theorem spells_isAsciiDigit_iff {d : Directive} : d.Spells Head.isAsciiDigit ↔
    d.Valid ∧ d.text.AsciiDigits := by
  constructor
  · intro spells
    refine ⟨⟨spells.flags, fun numeral same => ?_, fun numeral same g member => ?_,
      spells.letter⟩, fun g member => ?_⟩
    · obtain ⟨nonempty, digits⟩ := spells.width numeral same
      exact ⟨nonempty, fun g member => isDigit_of_isAsciiDigit (digits g member)⟩
    · exact isDigit_of_isAsciiDigit (spells.precision numeral same g member)
    rcases List.mem_cons.1 member with rfl | inside
    · decide +kernel
    have flags : Text.AsciiDigits "-+ #0'" := by
      unfold Text.AsciiDigits
      decide +kernel
    refine forall_mem_tail (by decide +kernel)
      (fun g flag => flags g (of_decide_eq_true (spells.flags g flag)))
      (fun numeral same g digit _ => (spells.width numeral same).2 g digit)
      (fun numeral same g digit _ => spells.precision numeral same g digit)
      (fun g present digit => ?_) g inside
    have converts := spells.letter
    rw [conversion?, Option.mem_def.1 present] at converts
    rw [(finalLetters_classes g (mem_finalLetters_of_conversion converts).1).2.1] at digit
    cases digit
  · rintro ⟨valid, ascii⟩
    refine ⟨valid.flags, fun numeral same => ?_, fun numeral same g member => ?_, valid.letter⟩
    · obtain ⟨nonempty, digits⟩ := valid.width numeral same
      refine ⟨nonempty, fun g member => ascii g ?_ (digits g member)⟩
      simp [text, same, Amount.text, member]
    · refine ascii g ?_ (valid.precision numeral same g member)
      simp [text, same, Amount.text, member]

theorem Begins.isValid {t : Text} {d : Directive} (begins : d.Begins t)
    (accepted : d.isInvalid = false) : d.Valid :=
  ⟨fun g flag => decide_eq_true (begins.flags g flag), begins.width, begins.precision,
    by simpa [isInvalid] using accepted⟩

/-- A directive in ASCII digits stands where one is accepted that has no other digits. -/
theorem Begins.ascii_iff {t : Text} {d : Directive} (begins : d.Begins t) :
    (∃ raw, raw <+: t ∧ raw ∈ grammar Head.isAsciiDigit) ↔
      d.isInvalid = false ∧ d.text.AsciiDigits := by
  constructor
  · rintro ⟨raw, stands, spelled⟩
    obtain ⟨written, spells, rfl⟩ := mem_grammar_iff.1 spelled
    obtain ⟨valid, ascii⟩ := spells_isAsciiDigit_iff.1 spells
    have wide := mem_grammar_iff.2 ⟨written, spells_isDigit_iff.2 valid, rfl⟩
    rw [begins.unique _ stands wide] at ascii
    exact ⟨begins.valid.2 ⟨_, stands, wide⟩, ascii⟩
  · rintro ⟨accepted, ascii⟩
    have spells := spells_isAsciiDigit_iff.2 ⟨begins.isValid accepted, ascii⟩
    exact ⟨d.text, begins.text, mem_grammar_iff.2 ⟨d, spells, rfl⟩⟩

end Directive

namespace FormatString

variable {a : Argument} {f : FormatString}

/-- A directive in ASCII digits stands where a directive is accepted that has no other digits. Those
with other digits are accepted as well; all the rest is diagnosed. -/
theorem accepted_ascii_iff (spelled : ofArgument? a = some f) :
    ∀ p ∈ f.parts, ∀ d, p.piece = .directive d →
      ((∃ raw, raw <+: f.text.drop p.start ∧ raw ∈ Directive.grammar Head.isAsciiDigit) ↔
        d.isInvalid = false ∧ d.text.AsciiDigits) ∧
      (d.isInvalid = false → (d.Spells Head.isAsciiDigit ↔ d.text.AsciiDigits)) ∧
      (d.text.AsciiDigits →
        (¬ ∃ raw, raw <+: f.text.drop p.start ∧ raw ∈ Directive.grammar Head.isAsciiDigit) →
          .invalidDirective p.span d.text ∈ f.diagnostics) := by
  intro p member d directive
  have begins := begins_of_mem spelled member directive
  refine ⟨begins.ascii_iff, fun accepted => ?_, fun ascii nowhere => ?_⟩
  · rw [Directive.spells_isAsciiDigit_iff]
    exact ⟨And.right, fun ascii => ⟨begins.isValid accepted, ascii⟩⟩
  · have invalid : d.isInvalid = true := by
      refine Bool.eq_true_of_not_eq_false fun accepted => ?_
      exact nowhere (begins.ascii_iff.2 ⟨accepted, ascii⟩)
    rw [diagnostics_eq]
    refine List.mem_map.2 ⟨p, List.mem_filter.2 ⟨member, ?_⟩, ?_⟩
    · rw [directive]
      exact invalid
    · rw [directive]
      rfl

/-- A literal with a directive in ASCII digits, one with a superscript for its width, and one with
an unknown letter. -/
def superscript : List Lexeme := [⟨[], .string, "\"%7d%²d%.3y\""⟩]

theorem accepted_ascii_iff_superscript :
    ∃ (a : Argument) (f : FormatString), ofArgument? a = some f ∧
      f.parts.map (·.piece.source) =
        [Text.ofString "%7d", Text.ofString "%²d", Text.ofString "%.3y"] ∧
      ∀ p ∈ f.parts, ∀ d, p.piece = .directive d →
        ((∃ raw, raw <+: f.text.drop p.start ∧ raw ∈ Directive.grammar Head.isAsciiDigit) ↔
          d.isInvalid = false ∧ d.text.AsciiDigits) ∧
        (d.isInvalid = false → (d.Spells Head.isAsciiDigit ↔ d.text.AsciiDigits)) ∧
        (d.text.AsciiDigits →
          (¬ ∃ raw, raw <+: f.text.drop p.start ∧ raw ∈ Directive.grammar Head.isAsciiDigit) →
            .invalidDirective p.span d.text ∈ f.diagnostics) :=
  ⟨⟨Token.place [] .first superscript, by decide⟩, _, rfl, by cbv,
    @accepted_ascii_iff ⟨Token.place [] .first superscript, by decide⟩ _ rfl⟩

/-- A superscript is accepted for a width, and nothing is reported. -/
theorem superscript_accepted :
    ∃ (tokens : List Token) (a : Argument) (f : FormatString) (d : Directive),
      Token.tokenize [] "\"%²d\"" = .ok tokens ∧ (∀ t ∈ a.tokens, t ∈ tokens) ∧
      ofArgument? a = some f ∧ f.parts.map (·.piece) = [.directive d] ∧ d.isInvalid = false ∧
      d.width = some (.digits [.char '²']) ∧ Head.isAsciiDigit (.char '²') = false ∧
      f.diagnostics = [] := by
  have chain : Lexeme.Chain [⟨[], .string, "\"%²d\""⟩] [] :=
    .cons (by decide) (by decide) (Head.read_iff_form.1 rfl) .nil
  exact ⟨_, ⟨Token.place [] .first [⟨[], .string, "\"%²d\""⟩], by decide⟩, _,
    ⟨[], some (.digits [.char '²']), none, none, some (.char 'd')⟩, Lexeme.tokenize_words chain [],
    by decide, rfl, by cbv, rfl, rfl, rfl, by cbv⟩

end FormatString

end FormatLint
