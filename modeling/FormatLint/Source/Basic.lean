import FormatLint.Source.Position

/-!
A source text under its file name, with its lines and the table of their starts. Looking an offset
up in the table gives its line and column.
-/

namespace FormatLint

structure Source where
  name : Text
  content : Text

namespace Source

/-- The offsets at which lines start: the first one, and one behind every line feed. -/
def lineStarts (s : Source) : List Nat :=
  0 :: s.content.zipIdx.filterMap fun (g, index) =>
    if g = .char '\n' then some (index + 1) else none

def lineCount (s : Source) : Nat := s.lineStarts.length

/-- The line and column of an offset, by the last line that starts at or before it. -/
def position (s : Source) (offset : Nat) : Position :=
  let starts := s.lineStarts.takeWhile (· ≤ offset)
  ⟨offset, starts.length, offset - starts.getLastD 0 + 1⟩

def locate (s : Source) (offset : Int) : Except SpanFault Position :=
  if offset < 0 ∨ offset > s.content.length then .error (.outside offset s.name)
  else .ok (s.position offset.toNat)

def span (s : Source) (start stop : Int) : Except SpanFault Span := do
  let first ← s.locate start
  let last ← s.locate stop
  Span.between s.name first last

def slice (s : Source) (start stop : Nat) : Text := (s.content.take stop).drop start

/-- The lines without the line feeds between them. -/
def lines (s : Source) : List Text := s.content.splitOnP (· = .char '\n')

/-- A line without the carriage returns at its end. -/
def dropReturns (line : Text) : Text := (line.reverse.dropWhile (· = .char '\r')).reverse

def line? (s : Source) (number : Nat) : Option Text := (s.lines[number - 1]?).map dropReturns

end Source

end FormatLint
