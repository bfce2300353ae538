import FormatLint.Edit

/-!
What edits do to a text. `Edit.Splices` puts the old and the new text side by side, with the edits
that lead from one to the other; `Edit.applyAll_eq_ok` says that any order of the edits makes the new
text, as long as no two of them start at the same place. `Edit.exists_applyAll` says that edits which
stand apart can always be made.
-/

namespace FormatLint.Edit

/-- The edits turn the first text, which begins at an offset, into the second one. -/
inductive Splices : Nat → Text → List Edit → Text → Prop
  | nil {o : Nat} : Splices o [] [] []
  | keep {o : Nat} {kept before after : Text} {edits : List Edit}
      (later : Splices (o + kept.length) before edits after) :
      Splices o (kept ++ before) edits (kept ++ after)
  | replace {o : Nat} {old new before after : Text} {edits : List Edit}
      (later : Splices (o + old.length) before edits after) :
      Splices o (old ++ before) (⟨o, o + old.length, new⟩ :: edits) (new ++ after)

namespace Splices

theorem append {o : Nat} {before₁ before₂ after₁ after₂ : Text} {edits₁ edits₂ : List Edit}
    (first : Splices o before₁ edits₁ after₁)
    (second : Splices (o + before₁.length) before₂ edits₂ after₂) :
    Splices o (before₁ ++ before₂) (edits₁ ++ edits₂) (after₁ ++ after₂) := by
  induction first with
  | nil => exact second
  | keep later ih =>
      rw [List.length_append, ← Nat.add_assoc] at second
      rw [List.append_assoc, List.append_assoc]
      exact .keep (ih second)
  | replace later ih =>
      rw [List.length_append, ← Nat.add_assoc] at second
      rw [List.append_assoc, List.append_assoc]
      exact .replace (ih second)

theorem keep_all (o : Nat) (kept : Text) : Splices o kept [] kept := by
  have whole := @Splices.keep o kept [] [] [] .nil
  rwa [List.append_nil] at whole

theorem replace_all {o : Nat} (old new : Text) :
    Splices o old [⟨o, o + old.length, new⟩] new := by
  have whole := @Splices.replace o old new [] [] [] .nil
  rwa [List.append_nil, List.append_nil] at whole

theorem insert (o : Nat) (inserted : Text) : Splices o [] [.insertion o inserted] inserted :=
  replace_all [] inserted

/-- Splicing makes the new text, with whatever was kept since the last edit in front of it. -/
theorem splice_eq {o : Nat} {before after : Text} {edits : List Edit}
    (splices : Splices o before edits after) (kept : Text) (previous : Nat × Nat)
    (gap : previous.2 + kept.length = o) :
    splice (kept ++ before) previous edits = .ok (kept ++ after) := by
  induction splices generalizing kept previous with
  | nil => rfl
  | keep later ih =>
      rename_i o front before after edits
      have rest := ih (kept ++ front) previous
        (by rw [List.length_append]; omega)
      rwa [List.append_assoc, List.append_assoc] at rest
  | replace later ih =>
      rename_i o old new before after edits
      have rest := ih [] (o, o + old.length) (by simp)
      rw [List.nil_append, List.nil_append] at rest
      have behind : o + old.length - previous.2 = (kept ++ old).length := by
        rw [List.length_append]
        omega
      have front : o - previous.2 = kept.length := by omega
      have inOrder : ¬ o < previous.2 := by omega
      rw [splice]
      simp only [inOrder, if_false]
      rw [behind, ← List.append_assoc, List.drop_left, rest, front, List.append_assoc,
        List.take_left]

theorem sorted {o : Nat} {before after : Text} {edits : List Edit}
    (splices : Splices o before edits after) :
    (∀ e ∈ edits, o ≤ e.start) ∧
      edits.Pairwise fun first second => first.start ≤ second.start := by
  induction splices with
  | nil => exact ⟨by simp, .nil⟩
  | keep _ ih => exact ⟨fun e member => Nat.le_of_add_right_le (ih.1 e member), ih.2⟩
  | replace _ ih =>
      have behind := fun e member => Nat.le_of_add_right_le (ih.1 e member)
      exact ⟨List.forall_mem_cons.2 ⟨Nat.le_refl _, behind⟩, .cons behind ih.2⟩

end Splices

theorem start_le_of_pairLE {first second : Edit}
    (sorted : pairLE first.sortKey second.sortKey = true) : first.start ≤ second.start := by
  simp [pairLE, sortKey] at sorted
  omega

/-- Edits that start at different places have only one order. -/
theorem sortByPair_eq {edits ordered : List Edit} (same : edits.Perm ordered)
    (starts : ordered.Pairwise fun first second => first.start < second.start) :
    sortByPair sortKey edits = ordered := by
  have perm := (sortByPair_perm sortKey edits).trans same
  have apart : (sortByPair sortKey edits).Pairwise
      fun first second => first.start ≠ second.start :=
    (perm.pairwise_iff fun differ => Ne.symm differ).2 (starts.imp Nat.ne_of_lt)
  have sorted : (sortByPair sortKey edits).Pairwise
      fun first second => first.start < second.start :=
    ((sortByPair_sorted sortKey edits).and apart).imp fun order =>
      Nat.lt_of_le_of_ne (start_le_of_pairLE order.1) order.2
  refine perm.eq_of_pairwise ?_ sorted starts
  intro first second _ _ forth back
  omega

/-- Edits that start at different places make the new text, in whatever order they are given. -/
theorem applyAll_eq_ok {before after : Text} {edits ordered : List Edit}
    (splices : Splices 0 before ordered after) (same : edits.Perm ordered)
    (sorted : ordered.Pairwise fun first second => first.start ≤ second.start)
    (apart : edits.Pairwise fun first second => first.start ≠ second.start) :
    applyAll before edits = .ok after := by
  have differ : ordered.Pairwise fun first second => first.start ≠ second.start :=
    (same.pairwise_iff fun other => Ne.symm other).1 apart
  have starts := (sorted.and differ).imp fun order => Nat.lt_of_le_of_ne order.1 order.2
  have made := splices.splice_eq [] (0, 0) rfl
  rw [applyAll, sortByPair_eq same starts]
  exact made

def Apart (first second : Edit) : Prop := first.stop ≤ second.start ∨ second.stop ≤ first.start

theorem Apart.symm {first second : Edit} (apart : Apart first second) : Apart second first :=
  Or.symm apart

theorem exists_splice {rest : Text} {previous : Nat × Nat} {edits : List Edit}
    (behind : ∀ e ∈ edits, previous.2 ≤ e.start)
    (ordered : edits.Pairwise fun first second => first.stop ≤ second.start) :
    ∃ revised, splice rest previous edits = .ok revised := by
  induction edits generalizing rest previous with
  | nil => exact ⟨rest, rfl⟩
  | cons e later ih =>
      obtain ⟨next, ordered⟩ := List.pairwise_cons.1 ordered
      have inOrder : ¬ e.start < previous.2 := Nat.not_lt.2 (behind e List.mem_cons_self)
      have tailed : ∃ tail, splice (rest.drop (e.stop - previous.2)) (e.start, e.stop) later =
          .ok tail := ih next ordered
      obtain ⟨tail, made⟩ := tailed
      exact ⟨rest.take (e.start - previous.2) ++ (e.replacement ++ tail),
        by simp only [splice, inOrder, if_false, made]⟩

/-- Edits that stand apart can be made in any text. -/
theorem exists_applyAll (text : Text) {edits : List Edit}
    (forward : ∀ e ∈ edits, e.start ≤ e.stop) (apart : edits.Pairwise Apart) :
    ∃ revised, applyAll text edits = .ok revised := by
  have perm := sortByPair_perm sortKey edits
  have sorted := (sortByPair_sorted sortKey edits).and
    ((perm.pairwise_iff fun apart => Apart.symm apart).2 apart)
  refine exists_splice (fun e _ => Nat.zero_le e.start) (sorted.imp_of_mem ?_)
  intro first second front back order
  have one := forward first (perm.mem_iff.1 front)
  have two := forward second (perm.mem_iff.1 back)
  obtain ⟨before, apart⟩ := order
  simp [pairLE, sortKey] at before
  simp only [Apart] at apart
  omega

end FormatLint.Edit
