import FormatLint.Call.Basic

/-!
Cutting an argument list at its commas. Only commas outside all inner parentheses separate slots,
and the parenthesis that closes the list ends the last one. A semicolon or the end of the file
before that parenthesis means that the list is never closed.
-/

namespace FormatLint

/-- The tokens between two separators, with the separator behind them. -/
structure Slot where
  tokens : List Token
  stop : Token
  deriving DecidableEq

namespace Slot

/-- No argument list reaches over this token. -/
def endsStatement (t : Token) : Bool := t.kind = .eof || t.isPunct [";"]

/-- The depth of parentheses behind a token. -/
def depthAfter (depth : Nat) (t : Token) : Nat :=
  match t.kind with
  | .openParen => depth + 1
  | .closeParen => depth - 1
  | _ => depth

/-- The token is put in front of the first slot. -/
def consFirst (t : Token) : List Slot → List Slot
  | [] => []
  | first :: later => { first with tokens := t :: first.tokens } :: later

/-- The slots from a place inside `depth` inner parentheses on, if the list is closed. -/
def cut (depth : Nat) : List Token → Option (List Slot)
  | [] => none
  | t :: rest =>
    if endsStatement t then none
    else if depth = 0 ∧ t.kind = .closeParen then some [⟨[], t⟩]
    else if depth = 0 ∧ t.kind = .comma then (cut 0 rest).map (⟨[], t⟩ :: ·)
    else (cut (depthAfter depth t) rest).map (consFirst t)

def trimmed (s : Slot) : List Token := Token.trimComments s.tokens

/-- The list holds nothing but comments: it takes no arguments at all. -/
def areBare : List Slot → Bool
  | [only] => only.trimmed = []
  | _ => false

/-- The separators around the first slot in which nothing but comments stands. -/
def firstEmpty? (before : Token) : List Slot → Option (Token × Token)
  | [] => none
  | s :: later => if s.trimmed = [] then some (before, s.stop) else firstEmpty? s.stop later

theorem cut_ne_nil {depth : Nat} {tokens : List Token} {slots : List Slot}
    (closed : cut depth tokens = some slots) : slots ≠ [] := by
  fun_induction cut depth tokens generalizing slots with
  | case1 => cases closed
  | case2 => cases closed
  | case3 => cases closed; simp
  | case4 =>
    obtain ⟨later, _, rfl⟩ := Option.map_eq_some_iff.1 closed
    simp
  | case5 depth t rest _ _ _ ih =>
    obtain ⟨later, found, rfl⟩ := Option.map_eq_some_iff.1 closed
    cases later with
    | nil => exact absurd rfl (ih found)
    | cons => simp [consFirst]

end Slot

end FormatLint
