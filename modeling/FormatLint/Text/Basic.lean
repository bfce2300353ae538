/-!
Text as the tool sees it: a list of glyphs, each one column wide. A glyph is a character, or a byte
of a file that belongs to no character. Keeping such bytes apart lets a file that is not well-formed
text be checked, reported on and written back unchanged.
-/

namespace FormatLint

/-- One column of a text: a character, or a byte that belongs to no character. -/
inductive Glyph where
  | char (value : Char)
  | raw (byte : UInt8)
  deriving DecidableEq, Inhabited

/-- A text is its glyphs in reading order. -/
abbrev Text := List Glyph

instance : Coe Char Glyph := ⟨.char⟩

instance : LawfulBEq Text := inferInstance

/-- The glyph is a character of the given class; a stray byte is in no class. -/
def Glyph.satisfies (member : Char → Bool) : Glyph → Bool
  | .char value => member value
  | .raw _ => false

@[simp] theorem Glyph.satisfies_char (member : Char → Bool) (value : Char) :
    Glyph.satisfies member (.char value) = member value := rfl

@[simp] theorem Glyph.satisfies_raw (member : Char → Bool) (byte : UInt8) :
    Glyph.satisfies member (.raw byte) = false := rfl

namespace Text

def ofString (s : String) : Text := s.toList.map .char

instance : Coe String Text := ⟨ofString⟩

def ofNat (n : Nat) : Text := (Nat.toDigits 10 n).map .char

/-- The decimal numeral of a number, with a sign if it is negative. -/
def ofInt : Int → Text
  | .ofNat n => ofNat n
  | .negSucc n => .char '-' :: ofNat (n + 1)

/-- The text as a string; a stray byte shows as the replacement character. -/
def toString (t : Text) : String :=
  String.ofList (t.map fun
    | .char value => value
    | .raw _ => '\uFFFD')

/-- A row of `n` equal characters. -/
def fill (n : Nat) (c : Char) : Text := List.replicate n (.char c)

def joinWith (separator : Text) (parts : List Text) : Text := separator.intercalate parts

def ofLines (lines : List Text) : Text := joinWith [.char '\n'] lines

theorem toString_ofString (s : String) : toString (ofString s) = s := by
  have inverse : ((fun
      | .char value => value
      | .raw _ => '\uFFFD' : Glyph → Char) ∘ Glyph.char) = id := rfl
  simp [toString, ofString, inverse]

end Text

end FormatLint
