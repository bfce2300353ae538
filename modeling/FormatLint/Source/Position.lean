import FormatLint.Text.Basic

/-!
Positions in a text and the half-open spans between them.
-/

namespace FormatLint

/-- A place between two glyphs of a text. The offset counts from zero, line and column from one. -/
structure Position where
  offset : Nat
  line : Nat
  column : Nat
  deriving DecidableEq, Inhabited

namespace Position

/-- The place before the first glyph of a text. -/
def first : Position := ⟨0, 1, 1⟩

/-- The place behind a glyph. Only a line feed ends a line. -/
def step (p : Position) (g : Glyph) : Position :=
  if g = .char '\n' then ⟨p.offset + 1, p.line + 1, 1⟩ else ⟨p.offset + 1, p.line, p.column + 1⟩

/-- The place behind a text that begins at `p`. -/
def after (p : Position) (t : Text) : Position := t.foldl step p

@[simp] theorem after_nil (p : Position) : p.after [] = p := rfl

@[simp] theorem after_cons (p : Position) (g : Glyph) (t : Text) :
    p.after (g :: t) = (p.step g).after t := rfl

@[simp] theorem after_append (p : Position) (before rest : Text) :
    p.after (before ++ rest) = (p.after before).after rest := List.foldl_append

@[simp] theorem step_offset (p : Position) (g : Glyph) : (p.step g).offset = p.offset + 1 := by
  unfold step; split <;> rfl

theorem after_offset (p : Position) (t : Text) : (p.after t).offset = p.offset + t.length := by
  induction t generalizing p with
  | nil => rfl
  | cons g rest ih => simp [ih]; omega

/-- All three coordinates, as messages about a broken span show them. -/
def describe (p : Position) : Text :=
  "Position(offset=" ++ Text.ofNat p.offset ++ ", line=" ++ Text.ofNat p.line ++
    ", column=" ++ Text.ofNat p.column ++ ")"

end Position

/-- The glyphs of one file from `start` up to, but without, the one at `stop`. -/
structure Span where
  file : Text
  start : Position
  stop : Position
  deriving DecidableEq, Inhabited

/-- Why no span can be made. -/
inductive SpanFault where
  | reversed (start stop : Position)
  | outside (offset : Int) (file : Text)
  | nothingToJoin
  | acrossFiles (first last : Text)
  deriving DecidableEq

def SpanFault.message : SpanFault → Text
  | .reversed start stop =>
    "span ends before it starts: " ++ start.describe ++ " > " ++ stop.describe
  | .outside offset file => "offset " ++ Text.ofInt offset ++ " outside of " ++ file
  | .nothingToJoin => "join_span() requires at least one span"
  | .acrossFiles first last => "cannot join spans across files: " ++ first ++ " / " ++ last

namespace Span

/-- The span between two places, which must come in order. -/
def between (file : Text) (start stop : Position) : Except SpanFault Span :=
  if stop.offset < start.offset then .error (.reversed start stop) else .ok ⟨file, start, stop⟩

def length (s : Span) : Nat := s.stop.offset - s.start.offset

/-- Where the span begins, in the form `file:line:column`. -/
def location (s : Span) : Text :=
  s.file ++ ":" ++ Text.ofNat s.start.line ++ ":" ++ Text.ofNat s.start.column

/-- From the start of one span to the end of a later one in the same file. -/
def through (first last : Span) : Span := ⟨first.file, first.start, last.stop⟩

/-- The span from the first to the last of the spans that are there. -/
def join (spans : List (Option Span)) : Except SpanFault Span :=
  let present := spans.filterMap id
  match present.head?, present.getLast? with
  | some first, some last =>
    if first.file = last.file then between first.file first.start last.stop
    else .error (.acrossFiles first.file last.file)
  | _, _ => .error .nothingToJoin

theorem join_pair {first last : Span} (sameFile : first.file = last.file)
    (ordered : first.start.offset ≤ last.stop.offset) :
    join [some first, some last] = .ok (first.through last) := by
  simp [join, sameFile, between, through, Nat.not_lt.2 ordered]

end Span

end FormatLint
