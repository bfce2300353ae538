import FormatLint.Analysis
import FormatLint.Diagnostic.Frame

/-!
The report on one source text: its diagnostics and how many of them there are.
-/

namespace FormatLint

/-- A number of things, in words. -/
def counted (n : Nat) (thing : Text) : Text :=
  let ending : Text := if n = 1 then "" else "s"
  Text.ofNat n ++ " " ++ thing ++ ending

def Analysis.report (a : Analysis) : Text :=
  if a.diagnostics = [] then a.source.name ++ ": ok"
  else
    Diagnostic.renderAll a.diagnostics a.source ++ "\n\n" ++ a.source.name ++ ": " ++
      counted a.errors.length "error" ++ ", " ++ counted a.warnings.length "warning"

end FormatLint
