import FormatLint.Command.Word

/-!
Reading a command line: its words in order, and what they ask for together.
-/

namespace FormatLint

namespace Command

/-- The input files: they all stand next to each other. -/
inductive Inputs where
  | awaited
  | reading (names : List Text)
  | complete (names : List Text)

/-- What has been read of a command line. -/
structure Reading where
  inputs : Inputs
  typecast : Option Destination
  optimize : Option Destination
  verbosity : Nat
  quiet : Bool
  /-- Something is left over that cannot be read. -/
  hasRest : Bool

namespace Reading

def start : Reading := ⟨.awaited, none, none, 0, false, false⟩

/-- An option ends the row of input files. -/
def closeInputs (r : Reading) : Reading :=
  match r.inputs with
  | .reading names => { r with inputs := .complete names }
  | _ => r

def operand (r : Reading) (t : Text) : Reading :=
  match r.inputs with
  | .awaited => { r with inputs := .reading [t] }
  | .reading names => { r with inputs := .reading (names ++ [t]) }
  | .complete _ => { r with hasRest := true }

def separator (r : Reading) : Reading :=
  match r.inputs with
  | .complete _ => { r with hasRest := true }
  | _ => r

def flag (r : Reading) : Flag → Reading
  | .help => r
  | .verbose => { r with verbosity := r.verbosity + 1 }
  | .quiet => { r with quiet := true }

def revise (r : Reading) (kind : Revision) (destination : Destination) : Reading :=
  match kind with
  | .typecast => { r with typecast := some destination }
  | .optimize => { r with optimize := some destination }

/-- The request, once everything has been read. A text cannot be written to one place twice, and
several files cannot be written to one place. -/
def finish (r : Reading) : Request :=
  let files := match r.inputs with
    | .awaited => []
    | .reading names => names
    | .complete names => names
  let destinations := r.typecast.toList ++ r.optimize.toList
  if files = [] ∨ r.hasRest ∨ (r.typecast.isSome ∧ r.typecast = r.optimize) ∨
      (files.length > 1 ∧ destinations.any (· ≠ .inPlace)) then .misuse
  else .run ⟨files.map .ofText, r.typecast, r.optimize, r.verbosity, r.quiet⟩

end Reading

/-- Reads the words in order. Asking for help counts as soon as it is read. -/
def read (r : Reading) : List Word → Request
  | [] => r.finish
  | .operand t :: rest => read (r.operand t) rest
  | .separator :: rest => read r.separator rest
  | .flags flags :: rest =>
    if .help ∈ flags then .help else read (flags.foldl Reading.flag r.closeInputs) rest
  | .revision kind (some value) :: rest => read (r.closeInputs.revise kind (.ofText value)) rest
  | .revision kind none :: .operand value :: rest =>
    read (r.closeInputs.revise kind (.ofText value)) rest
  | .revision kind none :: rest => read (r.closeInputs.revise kind .inPlace) rest
  | .unknown :: rest => read { r.closeInputs with hasRest := true } rest
  | .broken :: _ => .misuse

end Command

/-- What the arguments of a command line ask for. -/
def Request.ofArguments (arguments : List Text) : Request :=
  match Command.classifyAll arguments with
  | some words => Command.read .start words
  | none => .misuse

end FormatLint
