import FormatLint.Text.Basic

/-!
Tab stops. A tab reaches to the next column that is a multiple of four; every other glyph takes one
cell; a line feed or a carriage return starts again at the first column.
-/

namespace FormatLint.Text

def tabWidth : Nat := 4

/-- The cells that a glyph takes when it stands in the given column. -/
def cells (column : Nat) (g : Glyph) : Text :=
  if g = .char '\t' then List.replicate (tabWidth - column % tabWidth) (.char ' ') else [g]

def columnAfter (column : Nat) (g : Glyph) : Nat :=
  if g = .char '\n' ∨ g = .char '\r' then 0 else column + (cells column g).length

def expandTabsFrom (column : Nat) : Text → Text
  | [] => []
  | g :: rest => cells column g ++ expandTabsFrom (columnAfter column g) rest

/-- The text as it shows, with spaces in place of tabs. -/
def expandTabs (t : Text) : Text := expandTabsFrom 0 t

theorem cells_ne_nil (column : Nat) (g : Glyph) : cells column g ≠ [] := by
  have below : column % tabWidth < tabWidth := Nat.mod_lt _ (by decide)
  unfold cells
  split <;> simp
  omega

end FormatLint.Text
