import FormatLint.Corpus.Draw
import FormatLint.Corpus.Program
import FormatLint.Printer

/-!
Drawing sample programs. What is drawn in which order decides which program a source of draws makes.
-/

namespace FormatLint.Corpus

variable {σ : Type} [Draws σ]

def letters : Text := "abcdefghijklmnopqrstuvwxyzABCDEFGHIJKLMNOPQRSTUVWXYZ"

def digits : Text := "0123456789"

/-- Words of C that are no names. -/
def keywords : List Text :=
  ["int", "char", "void", "return", "if", "else", "for", "while", "do", "case", "sizeof", "long",
   "short", "unsigned", "signed", "float", "double", "const"]

def specimens : List Specimen :=
  [⟨"%d", "int", ["1", "count", "a + b", "len(buf)", "-7"]⟩,
   ⟨"%i", "int", ["42", "n * 2"]⟩,
   ⟨"%u", "unsigned int", ["7u", "flags"]⟩,
   ⟨"%ld", "long", ["total", "100L"]⟩,
   ⟨"%zu", "size_t", ["sizeof(buf)", "n"]⟩,
   ⟨"%tu", "size_t", ["end - start", "span"]⟩,
   ⟨"%x", "unsigned int", ["mask", "0xff"]⟩,
   ⟨"%f", "double", ["3.14", "ratio", "x / 2.0"]⟩,
   ⟨"%c", "char", ["'a'", "c"]⟩,
   ⟨"%s", "char*", ["\"text\"", "name", "argv[0]"]⟩,
   ⟨"%p", "void*", ["ptr", "&value"]⟩,
   ⟨"%hhn", "signed char*", ["&small", "counter"]⟩]

def targets : List Target :=
  [⟨"printf", []⟩, ⟨"fprintf", ["stderr"]⟩, ⟨"sprintf", ["buf"]⟩,
   ⟨"snprintf", ["buf", "sizeof(buf)"]⟩]

def separators : List Text := [", ", ",", " , ", ",\n        "]

def nameStart : Text := letters ++ [.char '_']

def namePart : Text := letters ++ (digits ++ [.char '_'])

def fillerGlyphs : Text := letters ++ (digits ++ Text.ofString " .,:;!-_/")

/-- A name that is neither a keyword nor a printer. -/
def freeName (name : Text) : Text :=
  if name ∈ keywords ∨ (PrinterTable.standard.find? name).isSome then name ++ [.char '_']
  else name

def drawName : Drawn σ Text := do
  let first ← Drawn.choose nameStart (by decide)
  let count ← Drawn.between 0 10
  let later ← Drawn.times count (Drawn.choose namePart (by decide))
  return freeName (first :: later)

def drawFiller : Drawn σ Filler := do
  let count ← Drawn.between 0 12
  let plain ← Drawn.times count (Drawn.choose fillerGlyphs (by decide))
  let newline ← Drawn.chance 150
  let percent ← Drawn.chance 100
  let quotation ← Drawn.chance 50
  return ⟨plain, newline, percent, quotation⟩

/-- One of the expressions of a specimen. -/
def drawExpression (specimen : Specimen) : Drawn σ Text :=
  if present : specimen.expressions ≠ [] then Drawn.choose specimen.expressions present
  else return []

def drawItem : Drawn σ Item := do
  let specimen ← Drawn.choose specimens (by decide)
  let filler ← drawFiller
  let expression ← drawExpression specimen
  let isCast ← Drawn.chance 300
  return ⟨filler, specimen, expression, isCast⟩

def drawCall : Drawn σ SampleCall := do
  Drawn.enterCall
  let target ← Drawn.choose targets (by decide)
  let count ← Drawn.between 0 4
  let items ← Drawn.times count drawItem
  let filler ← drawFiller
  let separator ← Drawn.choose separators (by decide)
  return ⟨target, items, filler, separator⟩

/-- Seven statements of ten are calls, one each stands in a line comment, in a block comment and in
a literal. -/
def drawStatement : Drawn σ Statement := do
  let kind ← Drawn.lot
  if kind.below 700 then return .call (← drawCall)
  else if kind.below 800 then return .lineComment (← drawName)
  else if kind.below 900 then return .blockComment (← drawName)
  else return .literal (← drawName)

def drawFunction : Drawn σ SampleFunction := do
  let name ← drawName
  let count ← Drawn.between 1 6
  let body ← Drawn.times count drawStatement
  return ⟨name, body⟩

def drawProgram : Drawn σ Program := do
  let hasBanner ← Drawn.chance 300
  let hasPointer ← Drawn.chance 200
  let count ← Drawn.between 1 3
  let functions ← Drawn.times count drawFunction
  return ⟨hasBanner, hasPointer, functions⟩

def sources (state : σ) (count : Nat) : List Text :=
  ((Drawn.times count drawProgram).run state).1.map Program.text

def fileName (index : Nat) : Text :=
  let numeral := Text.ofNat index
  "case_" ++ Text.fill (6 - numeral.length) '0' ++ numeral ++ ".c"

def files (state : σ) (count : Nat) : List (Text × Text) :=
  (sources state count).zipIdx.map fun (source, index) => (fileName index, source)

end FormatLint.Corpus
