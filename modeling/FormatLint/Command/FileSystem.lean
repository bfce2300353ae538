import FormatLint.Command.Path
import FormatLint.Text.Quoted
import FormatLint.Text.Utf8

/-!
Access to files by their paths and to the output, and what can be wrong with it.
-/

namespace FormatLint

/-- Why a file cannot be read or written. -/
inductive FileFault where
  | missing
  | alreadyExists
  | notDirectory
  | isDirectory
  | other (code : Nat) (reason : Text)
  /-- The file was opened, but it could not be read or written to the end. -/
  | interrupted (code : Nat) (reason : Text)
  deriving DecidableEq

namespace FileFault

def code : FileFault → Nat
  | .missing => 2
  | .alreadyExists => 17
  | .notDirectory => 20
  | .isDirectory => 21
  | .other code _ => code
  | .interrupted code _ => code

def reason : FileFault → Text
  | .missing => "No such file or directory"
  | .alreadyExists => "File exists"
  | .notDirectory => "Not a directory"
  | .isDirectory => "Is a directory"
  | .other _ reason => reason
  | .interrupted _ reason => reason

def summary (fault : FileFault) : Text :=
  "[Errno " ++ Text.ofNat fault.code ++ "] " ++ fault.reason

/-- The fault at the path, which is not named any more once the file is open. -/
def message (fault : FileFault) (path : Path) : Text :=
  match fault with
  | .interrupted _ _ => fault.summary
  | _ => fault.summary ++ ": " ++ Text.quoted path.text

end FileFault

/-- Why a text cannot be printed. -/
inductive PrintFault where
  /-- The output has no bytes for one of the glyphs. -/
  | encoding
  | system (fault : FileFault)
  deriving DecidableEq

class FileSystem (m : Type → Type) where
  read : Path → m (Except FileFault Bytes)
  /-- Writes a file that must not exist yet. -/
  create : Path → Bytes → m (Except FileFault Unit)
  /-- Writes a file in place of the one that may exist. -/
  overwrite : Path → Bytes → m (Except FileFault Unit)

class Console (m : Type → Type) where
  /-- Prints a text. One that fails counts as not printed. -/
  print : Text → m (Except PrintFault Unit)

end FormatLint
