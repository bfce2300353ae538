import FormatLint.CType.Family
import FormatLint.Text.Digit

/-!
Conversion directives of format strings: flags, width, precision, length modifier and a letter that
selects the conversion. A directive is read whatever its letter is, so that a wrong one still stands
for an argument. `Directive.read_text` says that reading splits the text into the directive as it is
written and the rest.
-/

namespace FormatLint

/-- What a conversion prints, or for `count` where it stores the number of glyphs printed. -/
inductive Conversion where
  | integer
  | unsigned
  | floating
  | char
  | string
  | pointer
  | count
  deriving DecidableEq

namespace Conversion

def ofLetter? (g : Glyph) : Option Conversion :=
  if g ∈ Text.ofString "di" then some .integer
  else if g ∈ Text.ofString "uoxX" then some .unsigned
  else if g ∈ Text.ofString "fFeEgGaA" then some .floating
  else if g = .char 'c' then some .char
  else if g = .char 's' then some .string
  else if g = .char 'p' then some .pointer
  else if g = .char 'n' then some .count
  else none

/-- The family of the argument that the conversion reads. -/
def family : Conversion → Family
  | .integer => .integer
  | .unsigned => .unsigned
  | .floating => .floating
  | .char => .char
  | .string => .string
  | .pointer => .pointer
  | .count => .pointer

/-- The type of the place in which `count` stores. -/
def countType : Option LengthModifier → Text
  | some .hh => "signed char*"
  | some .h => "short*"
  | some .l => "long*"
  | some .ll => "long long*"
  | some .q => "long long*"
  | some .j => "intmax_t*"
  | some .z => "size_t*"
  | some .t => "ptrdiff_t*"
  | some .capitalL => "int*"
  | none => "int*"

/-- The type of the argument that the conversion reads under a length modifier. -/
def cType : Conversion → Option LengthModifier → Text
  | .count, length => countType length
  | conversion, length => conversion.family.sized length

end Conversion

/-- A width or precision: given by an argument, or by digits of any script. -/
inductive Amount where
  | star
  | digits (numeral : Text)
  deriving DecidableEq

namespace Amount

def text : Amount → Text
  | .star => [.char '*']
  | .digits numeral => numeral

/-- An asterisk, or all the digits that follow. -/
def read : Text → Amount × Text
  | .char '*' :: rest => (.star, rest)
  | t => (.digits (t.takeWhile Glyph.isDigit), t.dropWhile Glyph.isDigit)

theorem read_text (t : Text) : (read t).1.text ++ (read t).2 = t := by
  unfold read
  split
  · rfl
  · exact List.takeWhile_append_dropWhile

end Amount

/-- A directive without its percent sign. It has no letter if the format ends before one, or if an
escape sequence stands in its place. -/
structure Directive where
  flags : Text
  width : Option Amount
  precision : Option Amount
  length : Option LengthModifier
  letter : Option Glyph
  deriving DecidableEq

namespace Directive

/-- The directive as it is written. -/
def text (d : Directive) : Text :=
  .char '%' :: (d.flags ++ (d.width.elim [] Amount.text ++
    (d.precision.elim [] (fun amount => .char '.' :: amount.text) ++
      (d.length.elim [] LengthModifier.text ++ d.letter.toList))))

def conversion? (d : Directive) : Option Conversion := d.letter.bind Conversion.ofLetter?

/-- The directive has no known conversion. -/
def isInvalid (d : Directive) : Bool := d.conversion?.isNone

def family? (d : Directive) : Option Family := d.conversion?.map Conversion.family

def cType? (d : Directive) : Option Text := d.conversion?.map fun c => c.cType d.length

/-- The directive is a percent sign and a letter, with nothing between. -/
def isPlain (d : Directive) : Bool :=
  d.flags = [] && d.width = none && d.precision = none && d.length = none

def isFlag (g : Glyph) : Bool := g ∈ Text.ofString "-+ #0'"

/-- A width that has no digit is none. -/
def readWidth (t : Text) : Option Amount × Text :=
  let (amount, rest) := Amount.read t
  (if amount = .digits [] then none else some amount, rest)

/-- A precision begins with a period and may have no digit. -/
def readPrecision : Text → Option Amount × Text
  | .char '.' :: rest =>
    let (amount, tail) := Amount.read rest
    (some amount, tail)
  | t => (none, t)

def readLength (t : Text) : Option LengthModifier × Text :=
  match LengthModifier.all.find? (·.text.isPrefixOf t) with
  | some modifier => (some modifier, t.drop modifier.text.length)
  | none => (none, t)

/-- Any glyph but a backslash can be the letter. -/
def readLetter : Text → Option Glyph × Text
  | [] => (none, [])
  | g :: rest => if g = .char '\\' then (none, g :: rest) else (some g, rest)

/-- The directive whose percent sign stands in front of the text, and what follows it. -/
def read (t : Text) : Directive × Text :=
  let flags := t.takeWhile isFlag
  let (width, afterWidth) := readWidth (t.dropWhile isFlag)
  let (precision, afterPrecision) := readPrecision afterWidth
  let (length, afterLength) := readLength afterPrecision
  let (letter, rest) := readLetter afterLength
  (⟨flags, width, precision, length, letter⟩, rest)

theorem readWidth_text (t : Text) :
    (readWidth t).1.elim [] Amount.text ++ (readWidth t).2 = t := by
  have amount := Amount.read_text t
  unfold readWidth
  dsimp only
  split
  · rename_i noAmount
    simpa [noAmount, Amount.text] using amount
  · exact amount

theorem readPrecision_text (t : Text) :
    (readPrecision t).1.elim [] (fun amount => .char '.' :: amount.text) ++ (readPrecision t).2 =
      t := by
  unfold readPrecision
  split
  · simp [Amount.read_text]
  · rfl

theorem readLength_text (t : Text) :
    (readLength t).1.elim [] LengthModifier.text ++ (readLength t).2 = t := by
  unfold readLength
  split
  · rename_i modifier found
    have begins : modifier.text.isPrefixOf t = true := by
      simpa using List.find?_some found
    obtain ⟨rest, equal⟩ := List.isPrefixOf_iff_prefix.1 begins
    rw [← equal]
    simp
  · rfl

theorem readLetter_text (t : Text) : (readLetter t).1.toList ++ (readLetter t).2 = t := by
  unfold readLetter
  split
  · rfl
  · split <;> rfl

/-- Reading splits the text into the directive as it is written and the rest. -/
theorem read_text (t : Text) : (read t).1.text ++ (read t).2 = .char '%' :: t := by
  simp only [read, text, List.cons_append, List.append_assoc]
  rw [readLetter_text, readLength_text, readPrecision_text, readWidth_text,
    List.takeWhile_append_dropWhile]

theorem read_rest_length (t : Text) : (read t).2.length ≤ t.length := by
  have whole := congrArg List.length (read_text t)
  simp only [List.length_append, List.length_cons, text] at whole
  omega

end Directive

end FormatLint
