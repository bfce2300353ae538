import FormatLint.Command.Options
import FormatLint.Text.Digit

/-!
The parts that the arguments of a command line play. Options may stand anywhere among the names of
the input files. Long options may be cut short as long as only one begins like that; short ones may
share a hyphen, with or without an equals sign behind the first of them. A value is attached to its
option by an equals sign, or it is the next argument unless that is an option. Two hyphens end the
options.
-/

namespace FormatLint

namespace Command

/-- An option that takes no value. -/
inductive Flag where
  | help
  | verbose
  | quiet
  deriving DecidableEq

inductive OptionName where
  | flag (flag : Flag)
  | revision (revision : Revision)
  deriving DecidableEq

def optionNames : List (Text × OptionName) :=
  [("-h", .flag .help), ("--help", .flag .help), ("--typecast", .revision .typecast),
   ("--optimize", .revision .optimize), ("-v", .flag .verbose), ("--verbose", .flag .verbose),
   ("-q", .flag .quiet), ("--quiet", .flag .quiet)]

def hyphen : Glyph := .char '-'

def equals : Glyph := .char '='

/-- An argument of the command line by the part that it plays. -/
inductive Word where
  | operand (text : Text)
  /-- Two hyphens: only operands follow. -/
  | separator
  /-- Options without values, which may share a hyphen. -/
  | flags (flags : List Flag)
  | revision (revision : Revision) (value : Option Text)
  /-- An option that does not exist. -/
  | unknown
  /-- A value for an option that takes none, or an option that does not exist behind others that
  share its hyphen. -/
  | broken
  deriving DecidableEq

/-- The glyphs read as a number with a sign: digits, or digits around a period. A line feed behind
them does not count. -/
def isNegativeNumber : Text → Bool
  | [] => false
  | sign :: rest =>
    let isDecimal (g : Glyph) : Bool := g.satisfies FormatLint.isDecimal
    let numeral := if rest.getLast? = some (.char '\n') then rest.dropLast else rest
    sign = hyphen &&
      match numeral.dropWhile isDecimal with
      | [] => numeral ≠ []
      | point :: digits => point = .char '.' && digits ≠ [] && digits.all isDecimal

/-- An argument before and behind its first equals sign. -/
def splitValue (t : Text) : Text × Option Text :=
  match t.dropWhile (· ≠ equals) with
  | [] => (t, none)
  | _ :: value => (t.takeWhile (· ≠ equals), some value)

/-- The option without a value that is spelled by a hyphen and the glyph. -/
def shortFlag? (g : Glyph) : Option Flag :=
  match optionNames.lookup [hyphen, g] with
  | some (.flag flag) => some flag
  | _ => none

/-- The options that share a hyphen: `first` and those that the glyphs behind it spell. -/
def sharing (first : Flag) (t : Text) : Word :=
  match t.mapM shortFlag? with
  | some later => .flags (first :: later)
  | none => .broken

/-- An option with what is attached to it. A short option takes no value of its own, so that what is
attached to it spells more options. -/
def attached (isShort : Bool) (name : OptionName) (value : Option Text) : Word :=
  match name, value with
  | .revision revision, _ => .revision revision value
  | .flag flag, none => .flags [flag]
  | .flag flag, some value => if isShort ∧ value ≠ [] then sharing flag value else .broken

/-- An argument that begins with a hyphen and is no option. -/
def unlisted (t : Text) : Word :=
  if isNegativeNumber t ∨ .char ' ' ∈ t then .operand t else .unknown

/-- The part of one argument, if there is only one that it can play. -/
def classify (t : Text) : Option Word :=
  match t with
  | [] => some (.operand t)
  | first :: rest =>
    if first ≠ hyphen ∨ rest = [] then some (.operand t)
    else
      let isShort := rest.head? ≠ some hyphen
      let (stem, value) := splitValue t
      match optionNames.lookup t, optionNames.lookup stem with
      | some name, _ => some (attached isShort name none)
      | none, some name => some (attached isShort name value)
      | none, none =>
        if isShort then
          match rest.head?.bind shortFlag? with
          | some flag => some (sharing flag rest.tail)
          | none => some (unlisted t)
        else
          match optionNames.filter fun (spelling, _) => stem.isPrefixOf spelling with
          | [] => some (unlisted t)
          | [(_, name)] => some (attached isShort name value)
          | _ => none

/-- The parts of all arguments, if each can play only one. -/
def classifyAll : List Text → Option (List Word)
  | [] => some []
  | t :: rest =>
    if t = [hyphen, hyphen] then some (.separator :: rest.map .operand)
    else
      match classify t, classifyAll rest with
      | some word, some words => some (word :: words)
      | _, _ => none

end Command

end FormatLint
