import FormatLint.Proofs.Analysis.Sorting
import FormatLint.Proofs.Edit.Splice
import FormatLint.Proofs.Token.Below

/-!
Edits of a text and of the lines below it. The edits of each can be made without the other:
`Edit.applyAll_above`.
-/

namespace FormatLint.Edit

def shift (n : Nat) (e : Edit) : Edit := ⟨e.start + n, e.stop + n, e.replacement⟩

/-- Edits that come after the range `previous` are made in the text behind it. -/
theorem splice_shift (n : Nat) {rest made : Text} {previous : Nat × Nat} {edits : List Edit}
    (revised : splice rest previous edits = .ok made) :
    splice rest (previous.1 + n, previous.2 + n) (edits.map (shift n)) = .ok made := by
  induction edits generalizing rest made previous with
  | nil => exact revised
  | cons e later ih =>
      rw [splice] at revised
      rw [List.map_cons, splice]
      have starts : (shift n e).start < previous.2 + n ↔ e.start < previous.2 := by
        simp [shift]
      split at revised
      · cases revised
      · rename_i behind
        rw [if_neg (by rwa [starts])]
        have range : (shift n e).stop - (previous.2 + n) = e.stop - previous.2 ∧
            (shift n e).start - (previous.2 + n) = e.start - previous.2 := by
          simp only [shift]
          omega
        dsimp only
        rw [range.1, range.2]
        split at revised
        · rename_i tail found
          cases revised
          have later := ih found
          dsimp only at later
          rw [show ((shift n e).start, (shift n e).stop) = (e.start + n, e.stop + n) from rfl, later]
          rfl
        · cases revised

theorem splice_behind {kept rest made : Text} {previous : Nat × Nat} {edits : List Edit}
    (revised : splice rest (0, 0) edits = .ok made) :
    splice (kept ++ rest) previous (edits.map (shift (previous.2 + kept.length))) =
      .ok (kept ++ made) := by
  cases edits with
  | nil =>
      cases revised
      rfl
  | cons e later =>
      rw [splice, if_neg (Nat.not_lt_zero _)] at revised
      rw [List.map_cons, splice]
      generalize whole : previous.2 + kept.length = n
      have behind : ¬ (shift n e).start < previous.2 := by
        simp only [shift]
        omega
      have stop : (shift n e).stop - previous.2 = kept.length + e.stop := by
        simp only [shift]
        omega
      have start : (shift n e).start - previous.2 = kept.length + e.start := by
        simp only [shift]
        omega
      rw [if_neg behind, stop, start, List.drop_length_add_append, List.take_length_add_append]
      split at revised
      · rename_i tail found
        cases revised
        have later := splice_shift n found
        rw [show (e.start + n, e.stop + n) = ((shift n e).start, (shift n e).stop) from rfl] at later
        rw [Nat.sub_zero] at later
        rw [later]
        simp [shift]
      · cases revised

/-- Edits inside a text leave what stands behind it to those that come after them. -/
theorem splice_front {rest made : Text} {previous : Nat × Nat} {edits : List Edit}
    (revised : splice rest previous edits = .ok made)
    (inside : ∀ e ∈ edits, e.start ≤ e.stop ∧ e.stop ≤ previous.2 + rest.length) :
    ∃ front kept range, made = front ++ kept ∧ range.2 + kept.length = previous.2 + rest.length ∧
      ∀ more later after, splice (kept ++ more) range later = .ok (kept ++ after) →
        splice (rest ++ more) previous (edits ++ later) = .ok (made ++ after) := by
  induction edits generalizing rest made previous with
  | nil =>
      cases revised
      exact ⟨[], rest, previous, rfl, rfl, fun more later after done => done⟩
  | cons e edits ih =>
      rw [splice] at revised
      split at revised
      · cases revised
      · rename_i behind
        split at revised
        · rename_i tail found
          cases revised
          obtain ⟨forward, bound⟩ := inside e List.mem_cons_self
          have length : e.stop + (rest.drop (e.stop - previous.2)).length =
              previous.2 + rest.length := by
            rw [List.length_drop]
            omega
          obtain ⟨front, kept, range, rfl, whole, step⟩ := ih found fun other member => by
            dsimp only
            rw [length]
            exact inside other (List.mem_cons_of_mem e member)
          refine ⟨rest.take (e.start - previous.2) ++ (e.replacement ++ front), kept, range,
            by simp, whole.trans length, fun more later after done => ?_⟩
          rw [List.cons_append, splice, if_neg behind,
            List.drop_append_of_le_length (by omega), List.take_append_of_le_length (by omega),
            step more later after done]
          simp
        · cases revised

/-- The edits of a text and those of the lines below it make both revised texts. -/
theorem applyAll_above {text below made made' : Text} {edits edits' : List Edit}
    (revised : applyAll text edits = .ok made) (revised' : applyAll below edits' = .ok made')
    (inside : ∀ e ∈ edits, e.start ≤ e.stop ∧ e.stop ≤ text.length) :
    applyAll (text.above below) (edits ++ edits'.map (shift (text.length + 1))) =
      .ok (made.above made') := by
  have listed {l : List Edit} {e : Edit} (member : e ∈ sortByPair sortKey l) : e ∈ l :=
    (sortByPair_perm sortKey l).mem_iff.1 member
  have order : ∀ d ∈ edits, ∀ e ∈ edits'.map (shift (text.length + 1)),
      pairLE d.sortKey e.sortKey = true := by
    intro d front e back
    obtain ⟨other, _, rfl⟩ := List.mem_map.1 back
    obtain ⟨forward, bound⟩ := inside d front
    rw [pairLE_iff]
    left
    simp only [sortKey, shift]
    omega
  have moved : sortByPair sortKey (edits'.map (shift (text.length + 1))) =
      (sortByPair sortKey edits').map (shift (text.length + 1)) := by
    refine sortByPair_map _ fun d _ e _ => ?_
    rw [Bool.eq_iff_iff, pairLE_iff, pairLE_iff]
    simp only [sortKey, shift]
    omega
  obtain ⟨front, kept, range, rfl, whole, step⟩ := splice_front revised fun e member => by
    rw [Nat.zero_add]
    exact inside e (listed member)
  rw [Nat.zero_add] at whole
  rw [applyAll, sortByPair_append order, moved, Text.above]
  refine step _ _ (.char '\n' :: made') ?_
  have behind := @splice_behind (kept ++ [.char '\n']) below made' range _ revised'
  rw [List.length_append, ← Nat.add_assoc, whole] at behind
  simpa using behind

end FormatLint.Edit
