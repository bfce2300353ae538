import FormatLint.Command.Run

/-!
The program: a run over the files of the machine.
-/

namespace FormatLint

/-- A fault as the operating system reports it. -/
def FileFault.ofCode (code : UInt32) (details : String) : FileFault :=
  match code with
  | 2 => .missing
  | 17 => .alreadyExists
  | 20 => .notDirectory
  | 21 => .isDirectory
  | _ => .other code.toNat details

def FileFault.ofError : IO.Error → FileFault
  | .noFileOrDirectory _ code details => .ofCode code details
  | .alreadyExists _ code details => .ofCode code details
  | .inappropriateType _ code details => .ofCode code details
  | .permissionDenied _ code details => .ofCode code details
  | .invalidArgument _ code details => .ofCode code details
  | .resourceExhausted _ code details => .ofCode code details
  | .otherError code details => .ofCode code details
  | fault => .other 5 (Text.ofString (toString fault))

/-- Turns a failed action into the fault that it failed with. -/
def catchFault {α : Type} (action : IO α) : IO (Except FileFault α) := do
  try return .ok (← action) catch fault => return .error (.ofError fault)

/-- The fault of a file that is open. A directory can be opened like a file. -/
def FileFault.interrupt : FileFault → FileFault
  | .isDirectory => .isDirectory
  | fault => .interrupted fault.code fault.reason

/-- Opens a file and does something with it. -/
def withFile {α : Type} (p : Path) (mode : IO.FS.Mode) (action : IO.FS.Handle → IO α) :
    IO (Except FileFault α) := do
  match ← catchFault (IO.FS.Handle.mk p.text.toString mode) with
  | .error fault => return .error fault
  | .ok handle =>
    let result ← catchFault (action handle)
    return result.mapError .interrupt

def writeBytes (content : Bytes) (handle : IO.FS.Handle) : IO Unit := do
  handle.write content.toByteArray
  handle.flush

instance : FileSystem IO where
  read p := withFile p .read fun handle => return (← handle.readBinToEnd).toList
  create p content := withFile p .writeNew (writeBytes content)
  overwrite p content := withFile p .write (writeBytes content)

def usage : String :=
  "usage: safeprintf [-h] [--typecast [PATH]] [--optimize [PATH]] [-v] [-q] files [files ...]\n"

def writeText (stream : IO.FS.Stream) (t : Text) : IO Unit := do
  stream.write (Utf8.encode t).toByteArray
  stream.flush

instance : Console IO where
  print t := do
    let printed ← catchFault (writeText (← IO.getStdout) t)
    return printed.mapError .system

end FormatLint

open FormatLint

def main (arguments : List String) : IO UInt32 := do
  let output ← IO.getStdout
  let errors ← IO.getStderr
  match Request.ofArguments (arguments.map Text.ofString) with
  | .help =>
    writeText output usage
    return 0
  | .misuse =>
    writeText errors usage
    return 2
  | .run options =>
    let outcome ← Run.all options
    writeText errors (outcome.errorOutput options.threshold)
    return outcome.exitStatus.toUInt32
