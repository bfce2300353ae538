import FormatLint.CType.Family
import FormatLint.Text.Blank

/-!
Spellings of C types in casts. A spelling counts by its words and by the number of its asterisks;
spacing, qualifiers and the places of the asterisks do not matter. The family of a type is looked up
by its normal spelling and never guessed.
-/

namespace FormatLint.Spelling

def star : Text := [.char '*']

/-- Words that do not change the family of a type. -/
def qualifiers : List Text := ["const", "volatile", "restrict", "__restrict", "__restrict__"]

/-- The words of a spelling; every asterisk is one. -/
def words (spelling : Text) : List Text :=
  Text.words <| spelling.flatMap fun g =>
    if g = .char '*' then [.char ' ', .char '*', .char ' '] else [g]

/-- The normal spelling of a list of words: the names one space apart, then the asterisks. -/
def ofWords (words : List Text) : Text :=
  let relevant := words.filter (· ∉ qualifiers)
  Text.joinWith [.char ' '] (relevant.filter (· ≠ star)) ++
    List.replicate (relevant.count star) (.char '*')

def normalize (spelling : Text) : Text := ofWords (words spelling)

/-- The known types under their normal spellings. -/
def vocabulary : List (Text × Family) :=
  let entries (family : Family) (spellings : List String) : List (Text × Family) :=
    spellings.map fun spelling => (Text.ofString spelling, family)
  entries .integer
    ["int", "signed", "signed int", "short", "short int", "signed short", "long", "long int",
     "signed long", "long long", "long long int", "signed char", "intmax_t", "ssize_t",
     "ptrdiff_t", "intptr_t", "int8_t", "int16_t", "int32_t", "int64_t", "_Bool", "bool"] ++
  entries .unsigned
    ["unsigned", "unsigned int", "unsigned short", "unsigned short int", "unsigned long",
     "unsigned long int", "unsigned long long", "unsigned long long int", "unsigned char",
     "size_t", "uintmax_t", "uintptr_t", "uint8_t", "uint16_t", "uint32_t", "uint64_t"] ++
  entries .floating ["float", "double", "long double"] ++
  entries .char ["char", "wint_t", "wchar_t"] ++
  entries .string ["char*", "unsigned char*", "wchar_t*"] ++
  entries .pointer
    ["void*", "int*", "signed char*", "short*", "long*", "long long*", "size_t*", "intmax_t*",
     "ptrdiff_t*", "FILE*", "char**", "void**"]

/-- The family of a type in its normal spelling. -/
def family? (spelling : Text) : Option Family := vocabulary.lookup spelling

end FormatLint.Spelling
