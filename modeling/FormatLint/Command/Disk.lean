import FormatLint.Command.FileSystem

/-!
A tree of files in memory. Only regular files are kept; a directory is there because a file is in
it, or because it holds the working directory. Every text can be printed beside it.
-/

namespace FormatLint

/-- A file or directory by the names on the way to it from the root. -/
abbrev Place := List Text

/-- Files and their contents, and the directory in which relative paths start. -/
structure Disk where
  workingDirectory : Place
  files : List (Place × Bytes)

namespace Disk

def find? (d : Disk) (place : Place) : Option Bytes := d.files.lookup place

def isDirectory (d : Disk) (place : Place) : Bool :=
  place.isPrefixOf d.workingDirectory ||
    d.files.any fun (file, _) => place.isPrefixOf file && place ≠ file

/-- Follows the parts of a path. Every place on the way has to be a directory. -/
def walk (d : Disk) (place : Place) : List Text → Except FileFault Place
  | [] => .ok place
  | part :: rest =>
    if d.isDirectory place then
      walk d (if part = Text.ofString ".." then place.dropLast else place ++ [part]) rest
    else if (d.find? place).isSome then .error .notDirectory
    else .error .missing

def resolve (d : Disk) (p : Path) : Except FileFault Place :=
  d.walk (if p.isAbsolute then [] else d.workingDirectory) p.parts

/-- The content is put at the place, whatever was there before. -/
def put (d : Disk) (place : Place) (content : Bytes) : Disk :=
  if (d.find? place).isSome then
    { d with files := d.files.map fun (file, old) =>
        if file = place then (file, content) else (file, old) }
  else { d with files := d.files ++ [(place, content)] }

def read (d : Disk) (p : Path) : Except FileFault Bytes :=
  match d.resolve p with
  | .error fault => .error fault
  | .ok place =>
    if d.isDirectory place then .error .isDirectory
    else
      match d.find? place with
      | some content => .ok content
      | none => .error .missing

def create (d : Disk) (p : Path) (content : Bytes) : Except FileFault Disk :=
  match d.resolve p with
  | .error fault => .error fault
  | .ok place =>
    if d.isDirectory place || (d.find? place).isSome then .error .alreadyExists
    else .ok (d.put place content)

def overwrite (d : Disk) (p : Path) (content : Bytes) : Except FileFault Disk :=
  match d.resolve p with
  | .error fault => .error fault
  | .ok place => if d.isDirectory place then .error .isDirectory else .ok (d.put place content)

/-- The outcome of a change, and the disk behind it. -/
def commit (d : Disk) (change : Except FileFault Disk) : Except FileFault Unit × Disk :=
  match change with
  | .ok changed => (.ok (), changed)
  | .error fault => (.error fault, d)

instance : FileSystem (StateM Disk) where
  read p d := (d.read p, d)
  create p content d := d.commit (d.create p content)
  overwrite p content d := d.commit (d.overwrite p content)

instance : Console (StateM Disk) where
  print _ d := (.ok (), d)

end Disk

end FormatLint
