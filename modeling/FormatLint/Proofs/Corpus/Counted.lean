import FormatLint.Proofs.Corpus.Drawn
import Mathlib.Algebra.GroupWithZero.Nat

/-!
Counting the calls that are drawn. A counter beside the source of draws goes up each time a call is
drawn, and changes nothing else: the same program is drawn, and the counter goes up by the number of
calls in it (`Corpus.counts_drawProgram`).
-/

namespace FormatLint.Corpus

variable {σ α β : Type}

/-- A source of draws, and how many calls have been drawn from it. -/
structure Counted (σ : Type) where
  state : σ
  calls : Nat

instance [Draws σ] : Draws (Counted σ) where
  number bound s :=
    ((Draws.number bound s.state).1, { s with state := (Draws.number bound s.state).2 })
  lot s := ((Draws.lot s.state).1, { s with state := (Draws.lot s.state).2 })
  enterCall s := ⟨Draws.enterCall s.state, s.calls + 1⟩
  number_lt bound s positive := Draws.number_lt bound s.state positive

/-- With the counter the same is drawn, and the counter goes up by what is said of it. -/
def Counts (counted : Drawn (Counted σ) α) (draw : Drawn σ α) (calls : α → Nat) : Prop :=
  ∀ s, counted.run s =
    ((draw.run s.state).1, ⟨(draw.run s.state).2, s.calls + calls (draw.run s.state).1⟩)

section

variable {counted : Drawn (Counted σ) α} {draw : Drawn σ α} {calls : α → Nat}

theorem counts_pure (a : α) :
    Counts (pure a : Drawn (Counted σ) α) (pure a) fun _ => 0 :=
  fun _ => rfl

/-- What comes first draws no calls. -/
theorem Counts.bind {next : α → Drawn (Counted σ) β} {next' : α → Drawn σ β} {calls : β → Nat}
    (first : Counts counted draw fun _ => 0) (later : ∀ a, Counts (next a) (next' a) calls) :
    Counts (counted >>= next) (draw >>= next') calls := by
  intro s
  rw [StateT.run_bind, StateT.run_bind, first s]
  exact later _ _

/-- What is made of the draws still tells how many calls were among them. -/
theorem Counts.map (each : Counts counted draw calls) {make : α → β} {made : β → Nat}
    (same : ∀ a, made (make a) = calls a) :
    Counts (counted >>= fun a => pure (make a)) (draw >>= fun a => pure (make a)) made := by
  intro s
  rw [StateT.run_bind, StateT.run_bind, each s]
  refine Prod.ext rfl ?_
  exact congrArg (fun n => Counted.mk _ (s.calls + n)) (same _).symm

theorem Counts.times (each : Counts counted draw calls) (count : Nat) :
    Counts (Drawn.times count counted) (Drawn.times count draw) fun drawn =>
      (drawn.map calls).sum := by
  induction count with
  | zero => exact fun _ => rfl
  | succ count ih =>
      intro s
      have here := each s
      have later := ih (counted.run s).2
      rw [here] at later
      have whole : (Drawn.times (count + 1) counted).run s =
          ((counted.run s).1 :: ((Drawn.times count counted).run (counted.run s).2).1,
            ((Drawn.times count counted).run (counted.run s).2).2) := rfl
      rw [whole, here, later]
      refine Prod.ext rfl ?_
      exact congrArg (Counted.mk _) (Nat.add_assoc _ _ _)

theorem Counts.times_none (each : Counts counted draw fun _ => 0) (count : Nat) :
    Counts (Drawn.times count counted) (Drawn.times count draw) fun _ => 0 := by
  simpa using each.times count

end

variable [Draws σ]

/-- A call counts once, whatever its parts are. -/
theorem Counts.entered {counted : Drawn (Counted σ) α} {draw : Drawn σ α}
    (parts : Counts counted draw fun _ => 0) :
    Counts (do Drawn.enterCall; counted) (do Drawn.enterCall; draw) fun _ => 1 :=
  fun s => parts ⟨Draws.enterCall s.state, s.calls + 1⟩

theorem counts_number (bound : Nat) :
    Counts (σ := σ) (Drawn.number bound) (Drawn.number bound) fun _ => 0 :=
  fun _ => rfl

theorem counts_lot : Counts (σ := σ) Drawn.lot Drawn.lot fun _ => 0 := fun _ => rfl

theorem counts_between (low high : Nat) :
    Counts (σ := σ) (Drawn.between low high) (Drawn.between low high) fun _ => 0 :=
  (counts_number _).bind fun _ => counts_pure _

theorem counts_choose (items : List α) (nonempty : items ≠ []) :
    Counts (σ := σ) (Drawn.choose items nonempty) (Drawn.choose items nonempty) fun _ => 0 :=
  (counts_number _).bind fun _ => counts_pure _

theorem counts_chance (permille : Nat) :
    Counts (σ := σ) (Drawn.chance permille) (Drawn.chance permille) fun _ => 0 :=
  counts_lot.bind fun _ => counts_pure _

theorem counts_drawName : Counts (σ := σ) drawName drawName fun _ => 0 := by
  refine (counts_choose _ _).bind fun first => (counts_between 0 10).bind fun count => ?_
  exact ((counts_choose _ _).times_none count).bind fun later => counts_pure _

theorem counts_drawFiller : Counts (σ := σ) drawFiller drawFiller fun _ => 0 := by
  refine (counts_between 0 12).bind fun count => ?_
  refine ((counts_choose _ _).times_none count).bind fun plain => ?_
  exact (counts_chance 150).bind fun _ => (counts_chance 100).bind fun _ => (counts_chance 50).bind
    fun _ => counts_pure _

theorem counts_drawExpression (specimen : Specimen) :
    Counts (σ := σ) (drawExpression specimen) (drawExpression specimen) fun _ => 0 := by
  unfold drawExpression
  split
  · exact counts_choose _ _
  · exact counts_pure _

theorem counts_drawItem : Counts (σ := σ) drawItem drawItem fun _ => 0 := by
  refine (counts_choose _ _).bind fun specimen => counts_drawFiller.bind fun filler => ?_
  refine (counts_drawExpression specimen).bind fun expression => (counts_chance 300).bind fun _ => ?_
  exact counts_pure _

theorem counts_drawCall : Counts (σ := σ) drawCall drawCall fun _ => 1 := by
  refine .entered ((counts_choose _ _).bind fun target => (counts_between 0 4).bind fun count => ?_)
  refine (counts_drawItem.times_none count).bind fun items => counts_drawFiller.bind fun filler => ?_
  exact (counts_choose _ _).bind fun separator => counts_pure _

def Statement.calls : Statement → Nat
  | .call _ => 1
  | _ => 0

def SampleFunction.calls (f : SampleFunction) : Nat := (f.body.map Statement.calls).sum

/-- The number of calls in the program. -/
def Program.calls (p : Program) : Nat := (p.functions.map SampleFunction.calls).sum

theorem counts_drawStatement : Counts (σ := σ) drawStatement drawStatement Statement.calls := by
  refine counts_lot.bind fun kind => ?_
  split
  · exact counts_drawCall.map fun _ => rfl
  · split
    · exact counts_drawName.map fun _ => rfl
    · split
      · exact counts_drawName.map fun _ => rfl
      · exact counts_drawName.map fun _ => rfl

theorem counts_drawFunction :
    Counts (σ := σ) drawFunction drawFunction SampleFunction.calls := by
  refine counts_drawName.bind fun name => (counts_between 1 6).bind fun count => ?_
  exact (counts_drawStatement.times count).map fun body => rfl

/-- The counter goes up by the number of calls in the program. -/
theorem counts_drawProgram : Counts (σ := σ) drawProgram drawProgram Program.calls := by
  refine (counts_chance 300).bind fun hasBanner => (counts_chance 200).bind fun hasPointer => ?_
  refine (counts_between 1 3).bind fun count => ?_
  exact (counts_drawFunction.times count).map fun functions => rfl

end FormatLint.Corpus
