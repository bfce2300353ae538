import FormatLint.Format.FormatString

/-!
The grammar of formats, as a language beside the reader of pieces. `Piece.units_iff` says that a text
belongs to it exactly if every directive that the reader finds has a conversion, and that both agree
on how many arguments are demanded.
-/

namespace FormatLint

namespace Directive

/-- The directive belongs to the grammar: flags, a width that is an asterisk or has a digit, a
precision that may have none, a length modifier and the letter of a conversion. -/
structure Valid (d : Directive) : Prop where
  flags : ∀ g ∈ d.flags, isFlag g = true
  width : ∀ numeral, d.width = some (.digits numeral) →
    numeral ≠ [] ∧ ∀ g ∈ numeral, g.isDigit = true
  precision : ∀ numeral, d.precision = some (.digits numeral) → ∀ g ∈ numeral, g.isDigit = true
  letter : d.conversion?.isSome = true

/-- How many arguments the directive reads: one for every asterisk, and one that it converts. -/
def demandCount (d : Directive) : Nat :=
  (if d.width = some .star then 1 else 0) + (if d.precision = some .star then 1 else 0) + 1

theorem length_ofDirective (d : Directive) (span : Span) :
    (Demand.ofDirective d span).length = d.demandCount := by
  unfold Demand.ofDirective demandCount
  simp only [List.length_append, List.length_singleton]
  split <;> split <;> rfl

/-- The letters with which a length modifier or a conversion begins. -/
def finalLetters : Text := "hljztLqdiuoxXfFeEgGaAcspn"

theorem finalLetters_classes :
    ∀ g ∈ finalLetters, isFlag g = false ∧ g.isDigit = false ∧
      g ∉ [Glyph.char '*', .char '.', .char '%', .char '\\'] := by
  decide +kernel

def conversionLetters : Text := "diuoxXfFeEgGaAcspn"

theorem ofLetter?_isSome_iff {g : Glyph} :
    (Conversion.ofLetter? g).isSome = true ↔ g ∈ conversionLetters := by
  constructor
  · intro found
    have whole : conversionLetters = Text.ofString "di" ++
        (Text.ofString "uoxX" ++ (Text.ofString "fFeEgGaA" ++ Text.ofString "cspn")) := by decide
    rw [whole, List.mem_append, List.mem_append, List.mem_append]
    by_cases integer : g ∈ Text.ofString "di"
    · exact .inl integer
    by_cases unsigned : g ∈ Text.ofString "uoxX"
    · exact .inr (.inl unsigned)
    by_cases floating : g ∈ Text.ofString "fFeEgGaA"
    · exact .inr (.inr (.inl floating))
    refine .inr (.inr (.inr ?_))
    rw [Conversion.ofLetter?, if_neg integer, if_neg unsigned, if_neg floating] at found
    simp only [Text.ofString]
    grind
  · have all : ∀ g ∈ conversionLetters, (Conversion.ofLetter? g).isSome = true := by decide
    exact all g

theorem mem_finalLetters_of_conversion {g : Glyph} (found : (Conversion.ofLetter? g).isSome) :
    g ∈ finalLetters ∧ g ∉ [Glyph.char 'h', .char 'l', .char 'j', .char 'z', .char 't',
      .char 'L', .char 'q'] := by
  have all : ∀ g ∈ conversionLetters, g ∈ finalLetters ∧
      g ∉ [Glyph.char 'h', .char 'l', .char 'j', .char 'z', .char 't', .char 'L',
        .char 'q'] := by decide
  exact all g (ofLetter?_isSome_iff.1 found)

theorem isFlag_classes {g : Glyph} (flag : isFlag g = true) :
    g ∉ [Glyph.char '*', .char '.', .char '%', .char '\\'] := by
  have all : ∀ g ∈ Text.ofString "-+ #0'",
      g ∉ [Glyph.char '*', .char '.', .char '%', .char '\\'] := by decide
  exact all g (by simpa [isFlag] using flag)

theorem isDigit_classes {g : Glyph} (digit : g.isDigit = true) :
    g ∉ [Glyph.char '*', .char '.', .char '%', .char '\\'] := by
  intro listed
  have noDigit : ∀ g ∈ [Glyph.char '*', .char '.', .char '%', .char '\\'], g.isDigit = false := by
    decide +kernel
  rw [noDigit g listed] at digit
  cases digit

/-- The text begins with the end of a directive: its length modifier or its letter. -/
def Ends (t : Text) : Prop := ∃ g ∈ finalLetters, t.head? = some g

theorem Ends.classes {t : Text} (ends : Ends t) :
    ∀ g ∈ t.head?, isFlag g = false ∧ g.isDigit = false ∧
      g ∉ [Glyph.char '*', .char '.', .char '%', .char '\\'] := by
  obtain ⟨letter, listed, first⟩ := ends
  intro g member
  rw [first] at member
  cases Option.some.inj member
  exact finalLetters_classes _ listed

theorem amount_read_digits (numeral : Text) {rest : Text} (digits : ∀ g ∈ numeral, g.isDigit = true)
    (stops : ∀ g ∈ rest.head?, g.isDigit = false ∧ g ≠ .char '*') :
    Amount.read (numeral ++ rest) = (.digits numeral, rest) := by
  have noStar : ∀ later, numeral ++ rest ≠ .char '*' :: later := by
    intro later whole
    cases numeral with
    | nil => exact (stops (.char '*') (by rw [List.nil_append] at whole; simp [whole])).2 rfl
    | cons g numeral =>
        have same := (List.cons.inj whole).1
        exact isDigit_classes (digits g List.mem_cons_self) (by simp [same])
  have parts : (numeral ++ rest).takeWhile Glyph.isDigit = numeral ∧
      (numeral ++ rest).dropWhile Glyph.isDigit = rest := by
    rw [List.takeWhile_append_of_pos digits, List.dropWhile_append_of_pos digits]
    cases rest with
    | nil => simp
    | cons g rest => simp [(stops g rfl).1]
  unfold Amount.read
  split
  · rename_i later whole
    exact absurd whole (noStar later)
  · rw [parts.1, parts.2]

theorem readLength_text_append (length : Option LengthModifier) (rest : Text) {letter : Glyph}
    (found : (Conversion.ofLetter? letter).isSome) :
    readLength (length.elim [] LengthModifier.text ++ letter :: rest) =
      (length, letter :: rest) := by
  have other := (mem_finalLetters_of_conversion found).2
  simp only [List.mem_cons, List.not_mem_nil, or_false, not_or] at other
  cases length with
  | none =>
      simp [readLength, LengthModifier.all, LengthModifier.text, Text.ofString, Ne.symm, other]
  | some modifier =>
      cases modifier <;>
        simp [readLength, LengthModifier.all, LengthModifier.text, Text.ofString, Ne.symm, other]

theorem readPrecision_append {precision : Option Amount} {rest : Text}
    (digits : ∀ numeral, precision = some (.digits numeral) → ∀ g ∈ numeral, g.isDigit = true)
    (ends : Ends rest) :
    readPrecision (precision.elim [] (fun amount => .char '.' :: amount.text) ++ rest) =
      (precision, rest) := by
  cases precision with
  | none =>
      obtain ⟨g, listed, first⟩ := ends
      cases rest with
      | nil => cases first
      | cons other rest =>
          cases Option.some.inj first
          have classes := (finalLetters_classes g listed).2.2
          have period : g ≠ .char '.' := fun same => classes (by simp [same])
          change readPrecision (g :: rest) = (none, g :: rest)
          unfold readPrecision
          split
          · rename_i same
            exact absurd (List.cons.inj same).1 period
          · rfl
  | some amount =>
      cases amount with
      | star => rfl
      | digits numeral =>
          have stops : ∀ g ∈ rest.head?, g.isDigit = false ∧ g ≠ .char '*' := by
            intro g first
            obtain ⟨_, noDigit, other⟩ := ends.classes g first
            exact ⟨noDigit, fun same => other (by simp [same])⟩
          have read := amount_read_digits numeral (digits numeral rfl) stops
          simp [readPrecision, Amount.text, read]

theorem readWidth_append {width : Option Amount} {rest : Text}
    (digits : ∀ numeral, width = some (.digits numeral) →
      numeral ≠ [] ∧ ∀ g ∈ numeral, g.isDigit = true)
    (stops : ∀ g ∈ rest.head?, g.isDigit = false ∧ g ≠ .char '*') :
    readWidth (width.elim [] Amount.text ++ rest) = (width, rest) := by
  cases width with
  | none =>
      have read := amount_read_digits [] (by simp) stops
      simp only [readWidth, Option.elim, read, if_true]
  | some amount =>
      cases amount with
      | star => rfl
      | digits numeral =>
          obtain ⟨nonempty, all⟩ := digits numeral rfl
          have read := amount_read_digits _ all stops
          simp [readWidth, Option.elim, Amount.text, read, nonempty]

theorem takeWhile_flags {flags rest : Text} (all : ∀ g ∈ flags, isFlag g = true)
    (stops : ∀ g ∈ rest.head?, isFlag g = false) :
    (flags ++ rest).takeWhile isFlag = flags ∧ (flags ++ rest).dropWhile isFlag = rest := by
  rw [List.takeWhile_append_of_pos all, List.dropWhile_append_of_pos all]
  cases rest with
  | nil => simp
  | cons g rest => simp [stops g rfl]

theorem afterWidth_classes (precision : Option Amount) {rest : Text} (ends : Ends rest) :
    ∀ g ∈ (precision.elim [] (fun amount => .char '.' :: amount.text) ++ rest).head?,
      isFlag g = false ∧ g.isDigit = false ∧ g ∉ [Glyph.char '*', .char '%', .char '\\'] := by
  intro g first
  cases precision with
  | none =>
      obtain ⟨noFlag, noDigit, other⟩ := ends.classes g first
      exact ⟨noFlag, noDigit, fun listed => other (by simp at listed ⊢; grind)⟩
  | some amount =>
      cases Option.some.inj first
      decide +kernel

/-- Zeros in front of a width are flags as well, and it is as flags that they are read. -/
theorem flags_of_width {width : Option Amount} {rest : Text}
    (digits : ∀ numeral, width = some (.digits numeral) →
      numeral ≠ [] ∧ ∀ g ∈ numeral, g.isDigit = true)
    (stops : ∀ g ∈ rest.head?, isFlag g = false) :
    ∃ zeros other, width.elim [] Amount.text = zeros ++ other.elim [] Amount.text ∧
      (∀ g ∈ zeros, isFlag g = true) ∧
      (∀ numeral, other = some (.digits numeral) →
        numeral ≠ [] ∧ ∀ g ∈ numeral, g.isDigit = true) ∧
      (∀ g ∈ (other.elim [] Amount.text ++ rest).head?, isFlag g = false) ∧
      (width = some .star ↔ other = some .star) := by
  cases width with
  | none => exact ⟨[], none, rfl, by simp, by simp, stops, by simp⟩
  | some amount =>
      cases amount with
      | star =>
          refine ⟨[], some .star, rfl, by simp, by simp, ?_, by simp⟩
          intro g first
          cases Option.some.inj first
          decide
      | digits numeral =>
          have all := (digits numeral rfl).2
          have whole := List.takeWhile_append_dropWhile (p := isFlag) (l := numeral)
          have zeros : ∀ g ∈ numeral.takeWhile isFlag, isFlag g = true :=
            fun g member => List.all_eq_true.1 List.all_takeWhile g member
          cases kept : numeral.dropWhile isFlag with
          | nil =>
              rw [kept, List.append_nil] at whole
              exact ⟨numeral.takeWhile isFlag, none, by simp [Amount.text, whole], zeros,
                by simp, stops, by simp⟩
          | cons first more =>
              refine ⟨numeral.takeWhile isFlag, some (.digits (first :: more)), ?_, zeros, ?_,
                ?_, by simp⟩
              · rw [kept] at whole
                simp [Amount.text, whole]
              · intro other same
                cases same
                refine ⟨by simp, fun g member => all g ?_⟩
                rw [← kept] at member
                exact (List.dropWhile_sublist _).subset member
              · intro g member
                cases Option.some.inj member
                have stopped := List.head?_dropWhile_not isFlag numeral
                rw [kept] at stopped
                simpa using stopped

/-- The reader takes a directive of the grammar whole. It may take zeros of the width for flags,
which changes neither the conversion nor the demands. -/
theorem read_valid {d : Directive} (valid : d.Valid) (rest : Text) :
    ∃ other, read (d.text.tail ++ rest) = (other, rest) ∧
      other.conversion? = d.conversion? ∧ other.demandCount = d.demandCount := by
  obtain ⟨flags, width, precision, length, letter⟩ := d
  obtain ⟨isFlags, widthDigits, precisionDigits, converts⟩ := valid
  dsimp only at isFlags widthDigits precisionDigits
  cases letter with
  | none => simp [conversion?] at converts
  | some letter =>
      have found : (Conversion.ofLetter? letter).isSome = true := converts
      have ends : Ends (length.elim [] LengthModifier.text ++ letter :: rest) := by
        cases length with
        | none => exact ⟨letter, (mem_finalLetters_of_conversion found).1, rfl⟩
        | some modifier =>
            cases modifier <;> exact ⟨_, by decide, rfl⟩
      have stops := afterWidth_classes precision ends
      obtain ⟨zeros, other, whole, areFlags, otherDigits, noFlag, star⟩ :=
        flags_of_width widthDigits fun g first => (stops g first).1
      have inFlags : ∀ g ∈ flags ++ zeros, isFlag g = true := by
        intro g member
        rcases List.mem_append.1 member with inside | inside
        · exact isFlags g inside
        · exact areFlags g inside
      obtain ⟨front, back⟩ := takeWhile_flags inFlags noFlag
      have widthRead := readWidth_append otherDigits fun g first =>
        ⟨(stops g first).2.1, fun same => (stops g first).2.2 (by simp [same])⟩
      have precisionRead := readPrecision_append precisionDigits ends
      have lengthRead := readLength_text_append length rest found
      have noEscape : letter ≠ .char '\\' := by
        rintro rfl
        exact absurd found (by decide)
      refine ⟨⟨flags ++ zeros, other, precision, length, some letter⟩, ?_, rfl, ?_⟩
      · have spelled : text ⟨flags, width, precision, length, some letter⟩ =
            .char '%' :: (flags ++ zeros ++ (other.elim [] Amount.text ++
              (precision.elim [] (fun amount => .char '.' :: amount.text) ++
                (length.elim [] LengthModifier.text ++ [letter])))) := by
          simp [text, whole]
        rw [spelled, List.tail_cons]
        simp only [List.append_assoc, List.singleton_append, List.append_assoc] at front back ⊢
        simp only [read, front, back, widthRead, precisionRead, lengthRead]
        simp [readLetter, noEscape]
      · simp [demandCount, star]

theorem amount_digits {t numeral : Text} (read : (Amount.read t).1 = .digits numeral) :
    ∀ g ∈ numeral, g.isDigit = true := by
  unfold Amount.read at read
  split at read
  · cases read
  · cases read
    exact fun g member => List.all_eq_true.1 List.all_takeWhile g member

theorem readWidth_digits {t numeral : Text} (read : (readWidth t).1 = some (.digits numeral)) :
    numeral ≠ [] ∧ ∀ g ∈ numeral, g.isDigit = true := by
  unfold readWidth at read
  dsimp only at read
  split at read
  · cases read
  · rename_i nonempty
    have amount := Option.some.inj read
    refine ⟨?_, amount_digits amount⟩
    rintro rfl
    exact nonempty amount

theorem readPrecision_digits {t numeral : Text}
    (read : (readPrecision t).1 = some (.digits numeral)) : ∀ g ∈ numeral, g.isDigit = true := by
  unfold readPrecision at read
  split at read
  · exact amount_digits (Option.some.inj read)
  · cases read

theorem valid_of_read {t : Text} (letter : (read t).1.isInvalid = false) : (read t).1.Valid where
  flags g member := List.all_eq_true.1 List.all_takeWhile g member
  width _ read := readWidth_digits read
  precision _ read := readPrecision_digits read
  letter := by simpa [isInvalid] using letter

theorem forall_mem_amount {P : Glyph → Prop} {amount : Amount} (star : P (.char '*'))
    (digits : ∀ numeral, amount = .digits numeral → ∀ g ∈ numeral, P g) :
    ∀ g ∈ amount.text, P g := by
  cases amount with
  | star => simpa [Amount.text] using star
  | digits numeral => exact digits numeral rfl

/-- What holds of the signs of the grammar, and of the flags, the numerals and the letter of a
directive, holds of every glyph behind its percent sign. -/
theorem forall_mem_tail {P : Glyph → Prop} {d : Directive}
    (signs : ∀ g ∈ Text.ofString "*.hljztLq", P g) (flags : ∀ g ∈ d.flags, P g)
    (width : ∀ numeral, d.width = some (.digits numeral) → ∀ g ∈ numeral, P g)
    (precision : ∀ numeral, d.precision = some (.digits numeral) → ∀ g ∈ numeral, P g)
    (letter : ∀ g ∈ d.letter, P g) : ∀ g ∈ d.text.tail, P g := by
  intro g member
  simp only [text, List.tail_cons, List.mem_append] at member
  rcases member with inside | inside | inside | inside | inside
  · exact flags g inside
  · cases present : d.width with
    | none => simp [present] at inside
    | some amount =>
        rw [present] at inside
        exact forall_mem_amount (signs _ (by decide))
          (fun numeral same => width numeral (by rw [present, same])) g inside
  · cases present : d.precision with
    | none => simp [present] at inside
    | some amount =>
        rw [present] at inside
        rcases List.mem_cons.1 inside with rfl | inside
        · exact signs _ (by decide)
        · exact forall_mem_amount (signs _ (by decide))
            (fun numeral same => precision numeral (by rw [present, same])) g inside
  · cases present : d.length with
    | none => simp [present] at inside
    | some modifier =>
        rw [present] at inside
        have all : ∀ g ∈ modifier.text, g ∈ Text.ofString "*.hljztLq" := by
          cases modifier <;> decide
        exact signs g (all g inside)
  · exact letter g (Option.mem_toList.1 inside)

/-- Behind the percent sign of a directive of the grammar stands something, and neither another
percent sign nor a backslash. -/
theorem text_valid {d : Directive} (valid : d.Valid) :
    ∃ more, d.text = .char '%' :: more ∧ more ≠ [] ∧
      ∀ g ∈ more, g ≠ .char '%' ∧ g ≠ .char '\\' := by
  have apart {g : Glyph} (other : g ∉ [Glyph.char '*', .char '.', .char '%', .char '\\']) :
      g ≠ .char '%' ∧ g ≠ .char '\\' :=
    ⟨fun same => other (by simp [same]), fun same => other (by simp [same])⟩
  refine ⟨d.text.tail, rfl, ?_, forall_mem_tail (by decide)
    (fun g member => apart (isFlag_classes (valid.flags g member)))
    (fun numeral same g member => apart (isDigit_classes ((valid.width numeral same).2 g member)))
    (fun numeral same g member => apart (isDigit_classes (valid.precision numeral same g member)))
    fun g present => ?_⟩
  · cases present : d.letter with
    | none => simpa [conversion?, present] using valid.letter
    | some letter => simp [text, present]
  · have converts := valid.letter
    rw [conversion?, Option.mem_def.1 present] at converts
    exact apart (finalLetters_classes g (mem_finalLetters_of_conversion converts).1).2.2

end Directive

/-- The text is whole if each of its backslashes takes a glyph along. -/
inductive Whole : Text → Prop
  | nil : Whole []
  | escape {g : Glyph} {rest : Text} (later : Whole rest) : Whole (.char '\\' :: g :: rest)
  | plain {g : Glyph} {rest : Text} (noSlash : g ≠ .char '\\') (later : Whole rest) :
      Whole (g :: rest)

theorem Whole.append {before after : Text} (first : Whole before) (second : Whole after) :
    Whole (before ++ after) := by
  induction first with
  | nil => exact second
  | escape _ ih => exact .escape ih
  | plain noSlash _ ih => exact .plain noSlash ih

theorem Whole.of_slashless {t : Text} (noSlash : .char '\\' ∉ t) : Whole t := by
  induction t with
  | nil => exact .nil
  | cons g rest ih =>
      rw [List.mem_cons, not_or] at noSlash
      exact .plain (Ne.symm noSlash.1) (ih noSlash.2)

namespace Piece

/-- The text is a sequence of units: backslashes, each with the glyph behind it, other glyphs,
escaped percent signs, and directives. The number is that of the arguments that they demand. -/
inductive Units : Text → Nat → Prop
  | nil : Units [] 0
  | escape {g : Glyph} {rest : Text} {n : Nat} (later : Units rest n) :
      Units (.char '\\' :: g :: rest) n
  | plain {g : Glyph} {rest : Text} {n : Nat} (noPercent : g ≠ .char '%')
      (noSlash : g ≠ .char '\\') (later : Units rest n) : Units (g :: rest) n
  | percent {rest : Text} {n : Nat} (later : Units rest n) :
      Units (.char '%' :: .char '%' :: rest) n
  | directive {d : Directive} {rest : Text} {n : Nat} (valid : d.Valid) (later : Units rest n) :
      Units (d.text ++ rest) (d.demandCount + n)

def directive? : Piece → Option Directive
  | .directive d => some d
  | _ => none

/-- How many arguments the directives among the pieces demand. -/
def demandCount (pieces : List Piece) : Nat :=
  (pieces.filterMap directive?).foldr (fun d n => d.demandCount + n) 0

theorem filterMap_consText (glyphs : Text) (pieces : List Piece) :
    (consText glyphs pieces).filterMap directive? = pieces.filterMap directive? := by
  unfold consText
  split <;> rfl

theorem ofText_plain {g : Glyph} {rest : Text} (noPercent : g ≠ .char '%')
    (noSlash : g ≠ .char '\\') : ofText (g :: rest) = consText [g] (ofText rest) := by
  cases rest with
  | nil => simp [ofText, noPercent, consText]
  | cons next rest =>
      conv => lhs; unfold ofText
      simp [noPercent, noSlash]

theorem ofText_escape (g : Glyph) (rest : Text) :
    ofText (.char '\\' :: g :: rest) = consText [.char '\\', g] (ofText rest) := by
  conv => lhs; unfold ofText
  simp

theorem ofText_percent (rest : Text) :
    ofText (.char '%' :: .char '%' :: rest) = .percent :: ofText rest := by
  conv => lhs; unfold ofText
  simp

theorem ofText_directive {g : Glyph} {rest : Text} (noPercent : g ≠ .char '%') :
    ofText (.char '%' :: g :: rest) =
      .directive (Directive.read (g :: rest)).1 :: ofText (Directive.read (g :: rest)).2 := by
  conv => lhs; unfold ofText
  simp [noPercent]

/-- A directive of the grammar is read whole, whatever follows it. -/
theorem ofText_valid {d : Directive} (valid : d.Valid) (rest : Text) :
    ∃ other, ofText (d.text ++ rest) = .directive other :: ofText rest ∧
      other.conversion? = d.conversion? ∧ other.demandCount = d.demandCount := by
  obtain ⟨more, whole, nonempty, classes⟩ := Directive.text_valid valid
  obtain ⟨other, read, converts, demands⟩ := Directive.read_valid valid rest
  obtain ⟨g, more, rfl⟩ := List.exists_cons_of_ne_nil nonempty
  have noPercent := (classes g List.mem_cons_self).1
  rw [whole, List.tail_cons, List.cons_append] at read
  rw [whole, List.cons_append, List.cons_append, ofText_directive noPercent, read]
  exact ⟨other, rfl, converts, demands⟩

/-- The reader accepts what the grammar accepts, with the same demands. -/
theorem units_complete {t : Text} {n : Nat} (units : Units t n) :
    (∀ d ∈ (ofText t).filterMap directive?, d.isInvalid = false) ∧ demandCount (ofText t) = n := by
  induction units with
  | nil => simp [ofText, demandCount]
  | escape later ih =>
      rw [ofText_escape, filterMap_consText, demandCount, filterMap_consText]
      exact ih
  | plain noPercent noSlash later ih =>
      rw [ofText_plain noPercent noSlash, filterMap_consText, demandCount, filterMap_consText]
      exact ih
  | percent later ih =>
      rw [ofText_percent]
      exact ih
  | directive valid later ih =>
      rename_i d rest n
      obtain ⟨other, read, converts, demands⟩ := ofText_valid valid rest
      rw [read]
      obtain ⟨accepted, counted⟩ := ih
      have letter : other.isInvalid = false := by
        have converted := valid.letter
        rw [← converts] at converted
        simpa [Directive.isInvalid] using converted
      constructor
      · intro found member
        rcases List.mem_cons.1 member with rfl | member
        · exact letter
        · exact accepted found member
      · rw [← demands, ← counted]
        rfl

theorem whole_cons {g : Glyph} {rest : Text} (noSlash : g ≠ .char '\\')
    (whole : Whole (g :: rest)) : Whole rest := by
  cases whole with
  | escape => exact absurd rfl noSlash
  | plain _ later => exact later

theorem whole_append (before : Text) {after : Text} (noSlash : ∀ g ∈ before, g ≠ .char '\\')
    (whole : Whole (before ++ after)) : Whole after := by
  induction before with
  | nil => exact whole
  | cons g before ih =>
      have later := whole_cons (noSlash g List.mem_cons_self) whole
      exact ih (fun p member => noSlash p (List.mem_cons_of_mem g member)) later

/-- What the reader accepts belongs to the grammar. -/
theorem units_sound {t : Text} (whole : Whole t)
    (accepted : ∀ d ∈ (ofText t).filterMap directive?, d.isInvalid = false) :
    Units t (demandCount (ofText t)) := by
  fun_induction ofText t with
  | case1 => exact .nil
  | case2 =>
      have letter := accepted _ (List.mem_singleton.2 rfl)
      exact absurd letter (by decide)
  | case3 g noPercent =>
      cases whole with
      | plain noSlash later => exact .plain noPercent noSlash .nil
  | case4 next rest ih =>
      rw [filterMap_consText] at accepted
      rw [demandCount, filterMap_consText]
      cases whole with
      | escape later => exact .escape (ih later accepted)
      | plain noSlash => exact absurd rfl noSlash
  | case5 g next rest noSlash noPercent ih =>
      rw [filterMap_consText] at accepted
      rw [demandCount, filterMap_consText]
      cases whole with
      | escape => exact absurd rfl noSlash
      | plain _ later => exact .plain noPercent noSlash (ih later accepted)
  | case6 g rest noSlash percent ih =>
      obtain rfl : g = .char '%' := Classical.not_not.1 percent
      have later := whole_append [.char '%', .char '%'] (by decide) whole
      exact .percent (ih later accepted)
  | case7 g next rest noSlash percent noPercent reading ih =>
      obtain rfl : g = .char '%' := Classical.not_not.1 percent
      have valid := Directive.valid_of_read (t := next :: rest)
        (accepted _ List.mem_cons_self)
      obtain ⟨more, spelled, _, classes⟩ := Directive.text_valid valid
      have split_text := Directive.read_text (next :: rest)
      have slashless : ∀ g ∈ (Directive.read (next :: rest)).1.text, g ≠ .char '\\' := by
        rw [spelled]
        intro g member
        rcases List.mem_cons.1 member with rfl | member
        · decide
        · exact (classes g member).2
      rw [← split_text] at whole ⊢
      have later := whole_append _ slashless whole
      exact .directive valid
        (ih later fun d member => accepted d (List.mem_cons_of_mem _ member))

/-- A whole text belongs to the grammar exactly if the reader finds no directive without a
conversion, and both count the same demands. -/
theorem units_iff {t : Text} {n : Nat} (whole : Whole t) :
    Units t n ↔
      (∀ d ∈ (ofText t).filterMap directive?, d.isInvalid = false) ∧ demandCount (ofText t) = n := by
  constructor
  · exact units_complete
  · rintro ⟨accepted, rfl⟩
    exact units_sound whole accepted

end Piece

end FormatLint
