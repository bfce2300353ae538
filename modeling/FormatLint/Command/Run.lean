import FormatLint.Command.FileSystem
import FormatLint.Command.Request
import FormatLint.Log
import FormatLint.Report

/-!
Runs of the tool: every input file is read, reported on and, if nothing is wrong with it, revised
to where the options say. The files are treated one after the other, and what goes wrong with one
does not keep the others from being treated, unless its report cannot be printed.
-/

namespace FormatLint

/-- Why a run ends before all files are treated. -/
inductive Ending where
  /-- The edits of a revision overlap. -/
  | overlap (overlap : Overlap)
  /-- A text cannot be printed. -/
  | unprinted (fault : PrintFault)

/-- What a run prints and notes, and its exit status. -/
structure Outcome where
  output : Text
  log : List LogEntry
  status : Nat
  ending : Option Ending

namespace Outcome

def empty : Outcome := ⟨[], [], 0, none⟩

def ofLog (log : List LogEntry) (status : Nat) : Outcome := ⟨[], log, status, none⟩

/-- One thing after another; the worse status counts. -/
def append (first second : Outcome) : Outcome :=
  ⟨first.output ++ second.output, first.log ++ second.log, max first.status second.status,
    first.ending <|> second.ending⟩

instance : Append Outcome := ⟨append⟩

def exitStatus (o : Outcome) : Nat :=
  match o.ending with
  | some (.overlap _) => 2
  | _ => o.status

/-- What goes to the error stream: the log from the threshold on. -/
def errorOutput (o : Outcome) (threshold : Level) : Text :=
  (LogEntry.atLeast threshold o.log).flatMap LogEntry.render ++
    match o.ending with
    | some (.overlap overlap) => "internal error: " ++ overlap.message ++ "\n"
    | _ => []

end Outcome

namespace Revision

def name : Revision → Text
  | .typecast => "typecast"
  | .optimize => "optimize"

def apply (r : Revision) (a : Analysis) : Except Overlap Text :=
  match r with
  | .typecast => a.typecast
  | .optimize => a.optimize

def log (r : Revision) (a : Analysis) : List LogEntry :=
  match r with
  | .typecast => []
  | .optimize => a.optimizeLog

end Revision

namespace Options

/-- The revisions that are asked for, in the order in which they are made. -/
def revisions (o : Options) : List (Revision × Destination) :=
  o.typecast.toList.map ((.typecast, ·)) ++ o.optimize.toList.map ((.optimize, ·))

/-- The least important entries that are logged. -/
def threshold (o : Options) : Level :=
  if o.quiet then .error
  else
    match o.verbosity with
    | 0 => .warning
    | 1 => .info
    | _ => .debug

end Options

namespace Run

/-- An entry of the tool itself. -/
def note (level : Level) (message : Text) : LogEntry := ⟨level, "safeprintf", message⟩

/-- The note that a revision could not be written. -/
def failure (kind : Revision) (details : Text) : LogEntry :=
  note .error ("failed writing output for --" ++ kind.name ++ ": " ++ details)

/-- A text could not be printed, and nobody handles that. -/
def unprinted (log : List LogEntry) (fault : PrintFault) : Outcome :=
  ⟨[], log, 1, some (.unprinted fault)⟩

/-- What trying to write a file came to. -/
def written (kind : Revision) (target : Path) : Except FileFault Unit → Outcome
  | .ok _ => .ofLog [note .info ("wrote " ++ target.text)] 0
  | .error fault => .ofLog [failure kind (fault.message target)] 1

/-- What trying to print a revised text came to. Only a fault of the system is handled. -/
def writtenOut (kind : Revision) (text : Text) : Except PrintFault Unit → Outcome
  | .ok _ => ⟨text, [], 0, none⟩
  | .error (.system fault) => .ofLog [failure kind fault.summary] 1
  | .error .encoding => unprinted [] .encoding

/-- What trying to print a report came to. -/
def reported (a : Analysis) (report : Text) : Except PrintFault Unit → Outcome
  | .ok _ => ⟨report, a.log, 0, none⟩
  | .error fault => unprinted a.log fault

def unread (input : Path) (fault : FileFault) : Outcome :=
  .ofLog [note .error ("failed reading input at " ++ input.text ++ ": " ++ fault.message input)] 1

/-- An input with errors is not revised. -/
def refused (o : Options) (input : Path) : Outcome :=
  let refusal := note .warning (input.text ++ ": not rewritten, the file has errors")
  .ofLog (if o.revisions = [] then [] else [refusal]) 1

/-- The report on an input. Quiet runs only report what was found. -/
def report? (o : Options) (a : Analysis) : Option Text :=
  if a.diagnostics = [] ∧ o.quiet then none else some (a.report ++ "\n")

variable {m : Type → Type} [Monad m] [FileSystem m] [Console m]

/-- Writes a revised text to its destination. A named file must be new. -/
def write (input : Path) (kind : Revision) (text : Text) : Destination → m Outcome
  | .output => writtenOut kind text <$> Console.print text
  | .inPlace => written kind input <$> FileSystem.overwrite input (Utf8.encode text)
  | .file name =>
    written kind (.ofText name) <$> FileSystem.create (.ofText name) (Utf8.encode text)

/-- Makes revisions one after the other, up to the first that fails. -/
def writeAll (a : Analysis) (input : Path) : List (Revision × Destination) → m Outcome
  | [] => pure .empty
  | (kind, destination) :: later =>
    match kind.apply a with
    | .error overlap => pure ⟨[], kind.log a, 0, some (.overlap overlap)⟩
    | .ok text => do
      let outcome := .ofLog (kind.log a) 0 ++ (← write input kind text destination)
      if outcome.status = 0 then return outcome ++ (← writeAll a input later)
      else return outcome

/-- Prints the report on an input. -/
def review (o : Options) (a : Analysis) : m Outcome :=
  match report? o a with
  | none => pure (.ofLog a.log 0)
  | some report => reported a report <$> Console.print report

/-- Reports on an input and revises it if there are no errors. -/
def treat (o : Options) (input : Path) (a : Analysis) : m Outcome := do
  let outcome ← review o a
  if outcome.ending.isSome then return outcome
  else if a.hasErrors then return outcome ++ refused o input
  else return outcome ++ (← writeAll a input o.revisions)

/-- Reads one input and treats it. -/
def file (o : Options) (input : Path) : m Outcome := do
  match ← FileSystem.read input with
  | .error fault => return unread input fault
  | .ok content => treat o input (Source.analyze ⟨input.text, Utf8.decode content⟩ .standard)

/-- Treats the inputs in order. -/
def files (o : Options) : List Path → m Outcome
  | [] => return .empty
  | input :: later => do
    let outcome ← file o input
    if outcome.ending.isSome then return outcome
    else return outcome ++ (← files o later)

/-- The whole run. -/
def all (o : Options) : m Outcome := files o o.files

end Run

end FormatLint
