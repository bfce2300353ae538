import FormatLint.Text.Printable

/-!
Names in messages, put in quotes. Single quotes are used unless the name has one and no double
quote. What has no visible form is shown as an escape sequence with its code point; a byte that
belongs to no character is shown with the code point of the low surrogate that stands for it.
-/

namespace FormatLint.Text

/-- The hexadecimal numeral, filled up with zeros to at least `width` digits. -/
def hexadecimal (width n : Nat) : Text :=
  let numeral := Nat.toDigits 16 n
  fill (width - numeral.length) '0' ++ numeral.map .char

def escapeCode (code : Nat) : Text :=
  if code < 0x100 then "\\x" ++ hexadecimal 2 code
  else if code < 0x10000 then "\\u" ++ hexadecimal 4 code
  else "\\U" ++ hexadecimal 8 code

/-- A glyph between quotes of the given kind. -/
def quoteGlyph (quote : Char) : Glyph → Text
  | .raw byte => escapeCode (0xDC00 + byte.toNat)
  | .char c =>
    if c = quote ∨ c = '\\' then [.char '\\', .char c]
    else if c = '\t' then "\\t"
    else if c = '\n' then "\\n"
    else if c = '\r' then "\\r"
    else if isPrintable c then [.char c]
    else escapeCode c.toNat

/-- The kind of quotes that a text is put in. -/
def quoteFor (t : Text) : Char := if .char '\'' ∈ t ∧ .char '"' ∉ t then '"' else '\''

def quoted (t : Text) : Text :=
  let quote := quoteFor t
  [.char quote] ++ t.flatMap (quoteGlyph quote) ++ [.char quote]

end FormatLint.Text
