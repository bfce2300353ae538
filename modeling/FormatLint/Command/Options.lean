import FormatLint.Command.Path

/-!
What a command line can ask for.
-/

namespace FormatLint

/-- The two ways to revise a source text. -/
inductive Revision where
  | typecast
  | optimize
  deriving DecidableEq

/-- Where a revised text goes. -/
inductive Destination where
  | inPlace
  | output
  | file (name : Text)
  deriving DecidableEq

namespace Destination

/-- The destination that the value of an option names. Two hyphens name none, as if there were no
value. -/
def ofText (t : Text) : Destination :=
  if t = Text.ofString "<in-place>" ∨ t = Text.ofString "--" then .inPlace
  else if t = Text.ofString "-" then .output
  else .file t

end Destination

structure Options where
  files : List Path
  typecast : Option Destination
  optimize : Option Destination
  verbosity : Nat
  quiet : Bool
  deriving DecidableEq

/-- What a command line asks for. -/
inductive Request where
  | run (options : Options)
  | help
  /-- The command line makes no sense. -/
  | misuse
  deriving DecidableEq

end FormatLint
