import FormatLint.Text.Basic

/-!
The functions whose calls are checked: those that print formatted text, with the parameters that
come before the format.
-/

namespace FormatLint

/-- A function that takes some fixed arguments and then a format. A variadic one takes the formatted
values behind the format, any other takes them in a single argument list object. -/
structure Printer where
  name : Text
  /-- The declared types of the parameters before the format. -/
  fixedTypes : List Text := []
  variadic : Bool := true
  deriving DecidableEq

namespace Printer

/-- The place of the format among the arguments. -/
def formatIndex (p : Printer) : Nat := p.fixedTypes.length

/-- The function that takes the format already split. -/
def safeName (p : Printer) : Text := "safe_" ++ p.name

end Printer

/-- Printers by the identifier that calls them. A later entry replaces an earlier one. -/
abbrev PrinterTable := List (Text × Printer)

namespace PrinterTable

def find? (table : PrinterTable) (identifier : Text) : Option Printer :=
  table.reverse.lookup identifier

/-- Every printer under its own name. -/
def ofPrinters (printers : List Printer) : PrinterTable := printers.map fun p => (p.name, p)

def standard : PrinterTable :=
  ofPrinters [
    ⟨"printf", [], true⟩,
    ⟨"fprintf", ["FILE*"], true⟩,
    ⟨"dprintf", ["int"], true⟩,
    ⟨"sprintf", ["char* restrict"], true⟩,
    ⟨"snprintf", ["char* restrict", "size_t"], true⟩,
    ⟨"asprintf", ["char**"], true⟩,
    ⟨"vprintf", [], false⟩,
    ⟨"vfprintf", ["FILE*"], false⟩,
    ⟨"vdprintf", ["int"], false⟩,
    ⟨"vsprintf", ["char* restrict"], false⟩,
    ⟨"vsnprintf", ["char* restrict", "size_t"], false⟩,
    ⟨"vasprintf", ["char**"], false⟩]

end PrinterTable

end FormatLint
