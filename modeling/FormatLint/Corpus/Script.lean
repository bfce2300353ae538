import FormatLint.Corpus.Draw

/-!
Draws from a list of numbers that is read from its start again when it ends.
-/

namespace FormatLint

/-- A script of numbers, with how many draws have been made from it. -/
structure Script where
  numbers : Array Nat
  made : Nat

namespace Script

def ofList (numbers : List Nat) : Script := ⟨numbers.toArray, 0⟩

def next (s : Script) : Nat × Script :=
  (s.numbers.getD (s.made % s.numbers.size) 0, { s with made := s.made + 1 })

instance : Draws Script where
  number bound s := (s.next.1 % bound, s.next.2)
  lot s := (⟨fun permille => s.next.1 % 1000 < permille⟩, s.next.2)
  number_lt _ _ positive := Nat.mod_lt _ positive

end Script

end FormatLint
