import FormatLint.Text.Basic

/-!
Paths as they are given on the command line. Empty parts and single periods say nothing and are left
out; two periods are kept, because what they mean depends on the files.
-/

namespace FormatLint

structure Path where
  /-- Empty for a path that starts from the working directory. Exactly two slashes in front are a
  root of their own. -/
  root : Text
  parts : List Text
  deriving DecidableEq

namespace Path

def slash : Glyph := .char '/'

def rootOf (t : Text) : Text :=
  match (t.takeWhile (· = slash)).length with
  | 0 => []
  | 2 => [slash, slash]
  | _ => [slash]

def ofText (t : Text) : Path :=
  ⟨rootOf t, (t.splitOnP (· = slash)).filter fun part => part ≠ [] ∧ part ≠ Text.ofString "."⟩

def text (p : Path) : Text :=
  if p.root = [] ∧ p.parts = [] then "." else p.root ++ Text.joinWith [slash] p.parts

def isAbsolute (p : Path) : Bool := p.root ≠ []

end Path

end FormatLint
