import FormatLint.Text.Basic

/-!
Ranges of code points, the form in which the character classes of Unicode are tabulated.
-/

namespace FormatLint

structure CodeRange where
  first : Nat
  last : Nat
  deriving DecidableEq

namespace CodeRange

def anyContains (ranges : List CodeRange) (c : Char) : Bool :=
  ranges.any fun range => range.first ≤ c.toNat && c.toNat ≤ range.last

theorem anyContains_iff {ranges : List CodeRange} {c : Char} :
    anyContains ranges c = true ↔
      ∃ range ∈ ranges, range.first ≤ c.toNat ∧ c.toNat ≤ range.last := by
  simp [anyContains]

end CodeRange

end FormatLint
