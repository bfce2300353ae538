/-!
Sources of random draws. A source yields numbers below a bound and fractions between zero and one;
of a fraction only the comparisons with thousandths are known.
-/

namespace FormatLint

/-- A drawn fraction, by the numbers of thousandths that it is less than. -/
structure Lot where
  below : Nat → Bool

/-- A state from which draws are made. -/
class Draws (σ : Type) where
  /-- A number below the bound. -/
  number : Nat → σ → Nat × σ
  lot : σ → Lot × σ
  /-- The state once a call is begun: a source may count the calls that are drawn from it. -/
  enterCall : σ → σ := id
  number_lt : ∀ bound state, 0 < bound → (number bound state).1 < bound

/-- Something made from draws. -/
abbrev Drawn (σ α : Type) := StateM σ α

namespace Drawn

variable {σ α : Type} [Draws σ]

def number (bound : Nat) : Drawn σ Nat := fun state => Draws.number bound state

/-- A number from `low` to `high`, both included. -/
def between (low high : Nat) : Drawn σ Nat := do
  let step ← number (high - low + 1)
  return low + step

/-- One of the items. -/
def choose (items : List α) (nonempty : items ≠ []) : Drawn σ α := do
  let index ← number items.length
  return (items[index]?).getD (items.head nonempty)

def lot : Drawn σ Lot := fun state => Draws.lot state

def enterCall : Drawn σ Unit := fun state => ((), Draws.enterCall state)

/-- True with the given number of thousandths as its chance. -/
def chance (permille : Nat) : Drawn σ Bool := do
  let fraction ← lot
  return fraction.below permille

/-- The results of making something a number of times. -/
def times : Nat → Drawn σ α → Drawn σ (List α)
  | 0, _ => return []
  | n + 1, draw => do
    let first ← draw
    let later ← times n draw
    return first :: later

theorem between_bounds (low high : Nat) (state : σ) (ordered : low ≤ high) :
    low ≤ ((between low high).run state).1 ∧ ((between low high).run state).1 ≤ high := by
  have below := Draws.number_lt (high - low + 1) state (by omega)
  change low ≤ low + (Draws.number (high - low + 1) state).1 ∧
    low + (Draws.number (high - low + 1) state).1 ≤ high
  omega

theorem choose_mem (items : List α) (nonempty : items ≠ []) (state : σ) :
    ((choose items nonempty).run state).1 ∈ items := by
  have below := Draws.number_lt items.length state (List.length_pos_iff.2 nonempty)
  change (items[(Draws.number items.length state).1]?).getD (items.head nonempty) ∈ items
  rw [List.getElem?_eq_getElem below]
  exact List.getElem_mem below

end Drawn

end FormatLint
