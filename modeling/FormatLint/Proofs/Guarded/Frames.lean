import FormatLint.Proofs.Guarded.Calls

/-!
Showing a diagnostic never fails: whatever the context, the frames show lines that the source has.
-/

namespace FormatLint

namespace Frame

/-- All lines of the frame are lines of a source with `lineCount` lines. -/
def Within (lineCount : Nat) (f : Frame) : Prop := 1 ≤ f.first ∧ f.last ≤ lineCount

theorem around_within (context : Int) (lineCount : Nat) (l : Label) :
    (around context lineCount l).Within lineCount :=
  ⟨Int.le_max_left _ _, Int.min_le_left _ _⟩

theorem joinFrom_ne_nil (current : Frame) (later : List Frame) : joinFrom current later ≠ [] := by
  induction later generalizing current with
  | nil => exact List.cons_ne_nil _ _
  | cons next later ih =>
      rw [joinFrom]
      split
      · exact ih _
      · exact List.cons_ne_nil _ _

theorem joinFrom_within {lineCount : Nat} {current : Frame} {later : List Frame}
    (here : current.Within lineCount) (all : ∀ f ∈ later, f.Within lineCount) :
    ∀ f ∈ joinFrom current later, f.Within lineCount := by
  induction later generalizing current with
  | nil =>
      intro f member
      rwa [List.mem_singleton.1 member]
  | cons next later ih =>
      have front := all next List.mem_cons_self
      have back : ∀ f ∈ later, f.Within lineCount := fun f member => all f (List.mem_cons_of_mem _ member)
      rw [joinFrom]
      split
      · refine ih ⟨here.1, ?_⟩ back
        have first := here.2
        have second := front.2
        dsimp only
        omega
      · exact List.forall_mem_cons.2 ⟨here, ih front back⟩

theorem ofLabels_within (labels : List Label) (context : Int) (lineCount : Nat) :
    ∀ f ∈ ofLabels labels context lineCount, f.Within lineCount := by
  have all : ∀ f ∈ sortByPair (fun f => (f.first, f.last)) (labels.map (around context lineCount)),
      f.Within lineCount := by
    intro f member
    obtain ⟨l, _, rfl⟩ := List.mem_map.1 (mem_sortByPair.1 member)
    exact around_within context lineCount l
  rw [ofLabels]
  generalize sortByPair _ _ = frames at all
  cases frames with
  | nil => simp [join]
  | cons first later =>
      have all := List.forall_mem_cons.1 all
      exact joinFrom_within all.1 all.2

theorem ofLabels_ne_nil {labels : List Label} (present : labels ≠ []) (context : Int)
    (lineCount : Nat) : ofLabels labels context lineCount ≠ [] := by
  have same := (sortByPair_perm (fun f : Frame => (f.first, f.last))
    (labels.map (around context lineCount))).length_eq
  rw [ofLabels]
  generalize sortByPair _ _ = frames at same
  cases frames with
  | nil =>
      rw [List.length_map] at same
      exact absurd (List.length_eq_zero_iff.1 same.symm) present
  | cons first later => exact joinFrom_ne_nil first later

end Frame

theorem Diagnostic.labels_ne_nil {d : Diagnostic} {primary : Span}
    (found : d.primarySpan? = some primary) : d.labels ≠ [] := by
  intro empty
  rw [Diagnostic.primarySpan?, empty] at found
  cases found

namespace Guarded

variable {s : Source}

theorem line_ok {number : Int} (first : 1 ≤ number) (last : number ≤ s.lineCount) :
    line s number = .ok ((s.line? number.toNat).getD []) := by
  have inside : number.toNat - 1 < s.lines.length := by
    rw [s.lines_length]
    omega
  have found : s.line? number.toNat = some (Source.dropReturns s.lines[number.toNat - 1]) := by
    rw [Source.line?, List.getElem?_eq_getElem inside]
    rfl
  rw [line, if_pos ⟨first, last⟩, found]
  rfl

theorem frameRows_ok {f : Frame} (within : f.Within s.lineCount) (labels : List Label) :
    frameRows s labels f = .ok (Row.ofFrame s labels f) := by
  have rows : ((List.range (f.last + 1 - f.first).toNat).mapM fun (step : Nat) => do
      let number := f.first + step
      let content ← line s number
      return Row.line number.toNat content :: Row.marks labels number.toNat content) =
      .ok ((List.range (f.last + 1 - f.first).toNat).map fun (step : Nat) =>
        Row.ofLine s labels (f.first + step).toNat) := by
    refine mapM_ok fun step member => ?_
    have below := List.mem_range.1 member
    have first : 1 ≤ f.first + step := by
      have := within.1
      omega
    have last : f.first + step ≤ s.lineCount := by
      have := within.2
      omega
    dsimp only
    rw [line_ok first last]
    rfl
  rw [frameRows, rows, ok_bind, Row.ofFrame, Frame.lines, List.flatMap_map, List.flatMap_def]
  rfl

/-- A diagnostic can be shown with any number of lines around it. -/
theorem render_ok (s : Source) (d : Diagnostic) (context : Int) :
    render s d context = .ok (d.render s context) := by
  rw [render, Diagnostic.render]
  cases found : d.primarySpan? with
  | none => rfl
  | some primary =>
      have present := Frame.ofLabels_ne_nil (Diagnostic.labels_ne_nil found) context s.lineCount
      have within := Frame.ofLabels_within d.labels context s.lineCount
      dsimp only
      generalize Frame.ofLabels d.labels context s.lineCount = frames at present within
      have ends := List.getLast?_eq_some_getLast present
      have rows : frames.mapM (frameRows s d.labels) = .ok (frames.map (Row.ofFrame s d.labels)) :=
        mapM_ok fun f member => frameRows_ok (within f member) d.labels
      rw [last_ok ends, ok_bind, rows, ok_bind, ends]
      rfl

theorem report_ok (a : Analysis) : report a = .ok a.report := by
  have frames : (a.diagnostics.mapM fun d => render a.source d 1) =
      .ok (a.diagnostics.map fun d => d.render a.source 1) :=
    mapM_ok fun d _ => render_ok a.source d 1
  rw [report, Analysis.report]
  split
  · rfl
  · rw [frames]
    rfl

end Guarded

end FormatLint
