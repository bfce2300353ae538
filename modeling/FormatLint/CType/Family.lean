import FormatLint.Text.Basic

/-!
Families of C types. Directives and casts are compared by family, so `%d` agrees with a cast to
`long`: how wide an argument is plays no role, what it means does.
-/

namespace FormatLint

inductive Family where
  | integer
  | unsigned
  | floating
  | char
  | string
  | pointer
  deriving DecidableEq

/-- The length modifiers of directives. -/
inductive LengthModifier where
  | hh
  | ll
  | h
  | l
  | j
  | z
  | t
  | capitalL
  | q
  deriving DecidableEq

namespace LengthModifier

/-- All modifiers. None stands behind another one that it begins with. -/
def all : List LengthModifier := [.hh, .ll, .h, .l, .j, .z, .t, .capitalL, .q]

def text : LengthModifier → Text
  | .hh => "hh"
  | .ll => "ll"
  | .h => "h"
  | .l => "l"
  | .j => "j"
  | .z => "z"
  | .t => "t"
  | .capitalL => "L"
  | .q => "q"

def ofText? (t : Text) : Option LengthModifier := all.find? (·.text = t)

theorem ofText?_text (m : LengthModifier) : ofText? m.text = some m := by
  cases m <;> decide

end LengthModifier

namespace Family

def all : List Family := [.integer, .unsigned, .floating, .char, .string, .pointer]

def name : Family → Text
  | .integer => "integer"
  | .unsigned => "unsigned"
  | .floating => "floating"
  | .char => "char"
  | .string => "string"
  | .pointer => "pointer"

def ofName? (t : Text) : Option Family := all.find? (·.name = t)

theorem ofName?_name (f : Family) : ofName? f.name = some f := by
  cases f <;> decide

/-- The conversion letter to suggest for an argument of the family. -/
def letter : Family → Text
  | .integer => "d"
  | .unsigned => "u"
  | .floating => "f"
  | .char => "c"
  | .string => "s"
  | .pointer => "p"

def cType : Family → Text
  | .integer => "int"
  | .unsigned => "unsigned int"
  | .floating => "double"
  | .char => "char"
  | .string => "char*"
  | .pointer => "void*"

/-- The tag of an argument of the family in a `safe_` call. -/
def tag : Family → Text
  | .integer => "fmt_int"
  | .unsigned => "fmt_unsigned"
  | .floating => "fmt_float"
  | .char => "fmt_char"
  | .string => "fmt_string"
  | .pointer => "fmt_pointer"

/-- The type that a directive of the family reads under a length modifier. A modifier that has no
meaning for the family changes nothing. -/
def sized : Family → Option LengthModifier → Text
  | .integer, some .hh => "signed char"
  | .integer, some .h => "short"
  | .integer, some .l => "long"
  | .integer, some .ll => "long long"
  | .integer, some .q => "long long"
  | .integer, some .j => "intmax_t"
  | .integer, some .z => "ssize_t"
  | .integer, some .t => "ptrdiff_t"
  | .unsigned, some .hh => "unsigned char"
  | .unsigned, some .h => "unsigned short"
  | .unsigned, some .l => "unsigned long"
  | .unsigned, some .ll => "unsigned long long"
  | .unsigned, some .q => "unsigned long long"
  | .unsigned, some .j => "uintmax_t"
  | .unsigned, some .z => "size_t"
  | .unsigned, some .t => "size_t"
  | .floating, some .capitalL => "long double"
  | .char, some .l => "wint_t"
  | .string, some .l => "wchar_t*"
  | family, _ => family.cType

end Family

end FormatLint
