import FormatLint.Order
import FormatLint.Text.Basic

/-!
Edits of a text: replacements of ranges, all given by offsets into the text before any of them.
-/

namespace FormatLint

/-- The glyphs from `start` up to `stop` are replaced. Equal offsets make an insertion. -/
structure Edit where
  start : Nat
  stop : Nat
  replacement : Text
  deriving DecidableEq

/-- A range as messages about edits show it. -/
def describeRange (start stop : Nat) : Text :=
  "[" ++ Text.ofNat start ++ ", " ++ Text.ofNat stop ++ ")"

/-- A range that ends before it starts. -/
structure ReversedEdit where
  start : Nat
  stop : Nat
  deriving DecidableEq

def ReversedEdit.message (r : ReversedEdit) : Text :=
  "edit ends before it starts: " ++ describeRange r.start r.stop

/-- An edit that starts inside the range of the one before it. -/
structure Overlap where
  first : Nat × Nat
  second : Nat × Nat
  deriving DecidableEq

def Overlap.message (o : Overlap) : Text :=
  "rewrite edits overlap: " ++ describeRange o.first.1 o.first.2 ++ " and " ++
    describeRange o.second.1 o.second.2

namespace Edit

def ofRange (start stop : Nat) (replacement : Text) : Except ReversedEdit Edit :=
  if stop < start then .error ⟨start, stop⟩ else .ok ⟨start, stop, replacement⟩

def insertion (offset : Nat) (inserted : Text) : Edit := ⟨offset, offset, inserted⟩

/-- The rest of a text behind the range `previous`, with edits made in it that are in order. -/
def splice (rest : Text) (previous : Nat × Nat) : List Edit → Except Overlap Text
  | [] => .ok rest
  | e :: later =>
    if e.start < previous.2 then .error ⟨previous, (e.start, e.stop)⟩
    else
      match splice (rest.drop (e.stop - previous.2)) (e.start, e.stop) later with
      | .ok tail => .ok (rest.take (e.start - previous.2) ++ (e.replacement ++ tail))
      | .error overlap => .error overlap

def sortKey (e : Edit) : Int × Int := (e.start, e.stop)

/-- All edits made at once. Edits of the same range are made in the order of the list. -/
def applyAll (text : Text) (edits : List Edit) : Except Overlap Text :=
  splice text (0, 0) (sortByPair sortKey edits)

theorem applyAll_nil (text : Text) : applyAll text [] = .ok text := by
  simp [applyAll, sortByPair, splice]

end Edit

end FormatLint
