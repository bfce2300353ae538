import FormatLint.Diagnostic.Basic
import FormatLint.Source.Basic
import FormatLint.Text.Blank
import FormatLint.Text.Tabs

/-!
Code frames: the source lines that the labels of a diagnostic touch, with some lines of context, and
below each line the labels that mark a part of it. Tabs are shown as spaces; the marks stand below
the cells that the marked glyphs take.
-/

namespace FormatLint

namespace Label

/-- The first and the last line of a label. A label that ends behind a line feed does not reach the
line that begins there. -/
def lines (l : Label) : Nat × Nat :=
  let last := l.span.stop.line
  (l.span.start.line, if last > l.span.start.line ∧ l.span.stop.column = 1 then last - 1 else last)

/-- The label marks a part of the line. -/
def touches (l : Label) (line : Nat) : Bool := l.lines.1 ≤ line && line ≤ l.lines.2

/-- The cells of a line that the label marks, the first and the one behind the last. A label that
marks no glyph of the line still gets one cell. -/
def cells (l : Label) (line : Nat) (content : Text) : Nat × Nat :=
  let left := if line = l.lines.1 then l.span.start.column - 1 else 0
  let right := if line = l.span.stop.line then l.span.stop.column - 1 else content.length
  let first := (Text.expandTabs (content.take left)).length
  (first, max (Text.expandTabs (content.take right)).length (first + 1))

end Label

/-- A range of lines, both ends included. -/
structure Frame where
  first : Int
  last : Int
  deriving DecidableEq

namespace Frame

/-- The lines of a label and those up to `context` lines away, within the lines of the source. -/
def around (context : Int) (lineCount : Nat) (l : Label) : Frame :=
  ⟨max 1 (l.lines.1 - context), min lineCount (l.lines.2 + context)⟩

/-- Frames in order, where a frame that meets or touches the one before is joined to it. -/
def joinFrom (current : Frame) : List Frame → List Frame
  | [] => [current]
  | next :: later =>
    if next.first ≤ current.last + 1 then
      joinFrom ⟨current.first, max current.last next.last⟩ later
    else current :: joinFrom next later

def join : List Frame → List Frame
  | [] => []
  | first :: later => joinFrom first later

/-- The frames that show the labels. -/
def ofLabels (labels : List Label) (context : Int) (lineCount : Nat) : List Frame :=
  join (sortByPair (fun f => (f.first, f.last)) (labels.map (around context lineCount)))

/-- The line numbers of a frame. -/
def lines (f : Frame) : List Nat :=
  (List.range (f.last + 1 - f.first).toNat).map fun (step : Nat) => (f.first + step).toNat

end Frame

/-- A row of a code frame. -/
inductive Row where
  | line (number : Nat) (content : Text)
  /-- Marks the cells from `first` up to `stop`; the message stands behind the last mark of its
  label. -/
  | mark (first stop : Nat) (primary : Bool) (message : Text)
  /-- Stands for the lines left out between two frames. -/
  | gap
  deriving DecidableEq

namespace Row

/-- The marks of the labels that touch a line, from left to right. -/
def marks (labels : List Label) (line : Nat) (content : Text) : List Row :=
  let touching := (labels.filter (·.touches line)).map fun l => (l, l.cells line content)
  (sortByPair (fun (_, first, stop) => (first, stop)) touching).map fun (l, first, stop) =>
    .mark first stop l.primary (if line = l.lines.2 then l.message else [])

def ofLine (source : Source) (labels : List Label) (line : Nat) : List Row :=
  let content := (source.line? line).getD []
  .line line content :: marks labels line content

def ofFrame (source : Source) (labels : List Label) (f : Frame) : List Row :=
  f.lines.flatMap (ofLine source labels)

def ofFrames (source : Source) (labels : List Label) (frames : List Frame) : List Row :=
  [gap].intercalate (frames.map (ofFrame source labels))

/-- The row behind a gutter of the given width, in which the number of a line stands right. -/
def render (width : Nat) : Row → Text
  | .line number content =>
    let numeral := Text.ofNat number
    Text.trimRight
      (Text.fill (width - numeral.length) ' ' ++ numeral ++ Text.ofString " | " ++
        Text.expandTabs content)
  | .mark first stop primary message =>
    Text.fill width ' ' ++ Text.ofString " | " ++ Text.fill first ' ' ++
      Text.fill (stop - first) (if primary then '^' else '-') ++
      (if message = [] then [] else .char ' ' :: message)
  | .gap => Text.ofString "..."

end Row

namespace Diagnostic

/-- The diagnostic with its code frames. -/
def render (d : Diagnostic) (source : Source) (context : Int) : Text :=
  let help (indent : Text) : List Text :=
    match d.help with
    | none | some [] => []
    | some advice => [indent ++ " = help: " ++ advice]
  match d.primarySpan? with
  | none => Text.ofLines (d.headline :: help " ")
  | some primary =>
    let frames := Frame.ofLabels d.labels context source.lineCount
    let width := (Text.ofInt ((frames.getLast?.map (·.last)).getD 0)).length
    let gutter := Text.fill width ' '
    Text.ofLines
      ([d.headline, gutter ++ "--> " ++ primary.location, gutter ++ " |"] ++
        (Row.ofFrames source d.labels frames).map (Row.render width) ++
        [gutter ++ " |"] ++ help gutter)

def renderAll (ds : List Diagnostic) (source : Source) : Text :=
  Text.joinWith "\n\n" (ds.map fun d => d.render source 1)

end Diagnostic

end FormatLint
