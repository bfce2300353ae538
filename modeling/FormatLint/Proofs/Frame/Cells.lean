import FormatLint.Proofs.Frame.Cover

/-!
The cells of a line that a label marks. `Text.owners` says which glyph each cell of an expanded line
belongs to; `Label.cells_underline` says that a label marks the cells of its own glyphs.
-/

namespace FormatLint

namespace Text

/-- The glyph to which each cell belongs, by its place in the text: the first glyph has the place
`index` and stands in the given column. -/
def owners (column index : Nat) : Text → List Nat
  | [] => []
  | g :: rest =>
    List.replicate (cells column g).length index ++ owners (columnAfter column g) (index + 1) rest

def shown (g : Glyph) : Glyph := if g = .char '\t' then .char ' ' else g

variable {t : Text} {column index k n : Nat}

theorem owners_length (column index : Nat) (t : Text) :
    (owners column index t).length = (expandTabsFrom column t).length := by
  induction t generalizing column index with
  | nil => rfl
  | cons g rest ih =>
      rw [owners, expandTabsFrom, List.length_append, List.length_append, List.length_replicate, ih]

theorem owners_append (column index : Nat) (before after : Text) :
    owners column index (before ++ after) = owners column index before ++
      owners (before.foldl columnAfter column) (index + before.length) after := by
  induction before generalizing column index with
  | nil => rfl
  | cons g rest ih =>
      rw [List.cons_append, owners, owners, ih, List.append_assoc, List.length_cons, List.foldl_cons,
        Nat.add_assoc index 1, Nat.add_comm 1]

theorem owners_bounds : ∀ i ∈ owners column index t, index ≤ i ∧ i < index + t.length := by
  induction t generalizing column index with
  | nil => simp [owners]
  | cons g rest ih =>
      intro i member
      rw [List.length_cons]
      rcases List.mem_append.1 member with here | behind
      · rw [List.eq_of_mem_replicate here]
        omega
      · have bounds := ih i behind
        omega

theorem cells_eq (column : Nat) (g : Glyph) :
    cells column g = List.replicate (cells column g).length (shown g) := by
  rw [cells, shown]
  split
  · rw [List.length_replicate]
  · rfl

/-- Every cell shows the glyph to which it belongs. -/
theorem expandTabsFrom_getElem? (column index : Nat) (t : Text) (k : Nat) :
    (expandTabsFrom column t)[k]? =
      (owners column index t)[k]?.bind fun i => t[i - index]?.map shown := by
  induction t generalizing column index k with
  | nil => rfl
  | cons g rest ih =>
      have width : (List.replicate (cells column g).length index).length = (cells column g).length :=
        List.length_replicate
      rw [expandTabsFrom, owners]
      by_cases inside : k < (cells column g).length
      · rw [List.getElem?_append_left inside, List.getElem?_append_left (by omega),
          List.getElem?_replicate_of_lt inside, Option.bind_some, Nat.sub_self, cells_eq,
          List.getElem?_replicate_of_lt inside]
        rfl
      · rw [List.getElem?_append_right (by omega), List.getElem?_append_right (by omega), width,
          ih _ (index + 1)]
        cases owner : (owners (columnAfter column g) (index + 1) rest)[k - (cells column g).length]? with
        | none => rfl
        | some i =>
            have bounds := owners_bounds i (List.mem_of_getElem? owner)
            have place : i - index = i - (index + 1) + 1 := by omega
            rw [Option.bind_some, Option.bind_some, place, List.getElem?_cons_succ]

theorem owners_take (t : Text) (n : Nat) :
    ∃ behind, owners 0 0 t = owners 0 0 (t.take n) ++ behind ∧ (∀ i ∈ owners 0 0 (t.take n), i < n) ∧
      ∀ i ∈ behind, n ≤ i := by
  have whole := owners_append 0 0 (t.take n) (t.drop n)
  rw [List.take_append_drop] at whole
  refine ⟨_, whole, fun i member => ?_, fun i member => ?_⟩
  · have bounds := owners_bounds i member
    rw [List.length_take] at bounds
    omega
  · have bounds := owners_bounds i member
    rw [List.length_take, List.length_drop] at bounds
    omega

/-- The cells in front of a glyph are those of the text in front of it. -/
theorem owner_lt_iff {i : Nat} (owner : (owners 0 0 t)[k]? = some i) (n : Nat) :
    i < n ↔ k < (expandTabs (t.take n)).length := by
  obtain ⟨behind, whole, low, high⟩ := owners_take t n
  rw [expandTabs, ← owners_length 0 0]
  rw [whole] at owner
  by_cases inside : k < (owners 0 0 (t.take n)).length
  · rw [List.getElem?_append_left inside] at owner
    exact iff_of_true (low i (List.mem_of_getElem? owner)) inside
  · rw [List.getElem?_append_right (Nat.le_of_not_lt inside)] at owner
    exact iff_of_false (Nat.not_lt.2 (high i (List.mem_of_getElem? owner))) inside

theorem filter_owners (t : Text) (n : Nat) :
    ((owners 0 0 t).filter (· < n)).length = (expandTabs (t.take n)).length := by
  obtain ⟨behind, whole, low, high⟩ := owners_take t n
  rw [expandTabs, ← owners_length 0 0, whole, List.filter_append,
    List.filter_eq_self.2 fun i member => by simpa using low i member,
    List.filter_eq_nil_iff.2 fun i member => by simpa using high i member, List.append_nil]

theorem exists_owner {i : Nat} (inside : i < t.length) : ∃ k : Nat, (owners 0 0 t)[k]? = some i := by
  have whole := owners_append 0 0 (t.take i) (t.drop i)
  rw [List.take_append_drop, List.drop_eq_getElem_cons inside, owners,
    List.length_take_of_le (Nat.le_of_lt inside), Nat.zero_add] at whole
  have positive := List.length_pos_iff.2 (cells_ne_nil ((t.take i).foldl columnAfter 0) t[i])
  refine ⟨(owners 0 0 (t.take i)).length, ?_⟩
  rw [whole, List.getElem?_append_right (Nat.le_refl _), Nat.sub_self, List.getElem?_append_left,
    List.getElem?_replicate_of_lt positive]
  rwa [List.length_replicate]

end Text

namespace Label

def Has (l : Label) (o : Nat) : Prop := l.span.start.offset ≤ o ∧ o < l.span.stop.offset

/-- The cells from `first` up to `stop` are those of the label's glyphs in a line that starts at the
offset `start`. If there are none, one cell stands where they would begin. -/
structure Underlines (l : Label) (start : Nat) (content : Text) (first stop : Nat) : Prop where
  cells : (∃ i < content.length, l.Has (start + i)) → ∀ k : Nat, first ≤ k ∧ k < stop ↔
    ∃ i, (Text.owners 0 0 content)[k]? = some i ∧ l.Has (start + i)
  single : (¬ ∃ i < content.length, l.Has (start + i)) → stop = first + 1
  place : first =
    ((Text.owners 0 0 content).filter fun i => start + i < l.span.start.offset).length

variable {s : Source} {l : Label} {i : Nat} {above line below : Text}

theorem offset_of_line {o : Nat} (here : s.LineAt i above line below)
    (inside : o ≤ s.content.length) (same : s.lineOf o = i + 1) :
    o = above.length + ((s.position o).column - 1) := by
  have coordinates := Source.position_coordinates inside
  obtain ⟨start, listed, place⟩ := coordinates.start
  have number : (s.position o).line = i + 1 := coordinates.line.trans same
  rw [number, Nat.add_sub_cancel, here.start] at listed
  cases listed
  have column := coordinates.column
  omega

/-- Where the label begins in a line that it reaches. -/
theorem Inside.start_le_iff (inside : l.Inside s) (here : s.LineAt i above line below)
    (reaches : l.firstLine s ≤ i + 1) {j : Nat} (within : j ≤ line.length) :
    l.span.start.offset ≤ above.length + j ↔
      (if i + 1 = l.firstLine s then l.span.start.column - 1 else 0) ≤ j := by
  obtain ⟨bound, place⟩ := Source.inside_of_locate inside.start
  have number := here.lineOf_eq within
  split
  · rename_i same
    have offset := offset_of_line here bound same.symm
    rw [place] at offset
    omega
  · rename_i other
    apply iff_of_true _ (Nat.zero_le j)
    by_contra before
    have order := s.lineOf_mono (Nat.le_of_not_le before)
    rw [firstLine] at reaches other
    omega

theorem Inside.lt_stop_iff (inside : l.Inside s) (here : s.LineAt i above line below)
    (reaches : i + 1 ≤ l.lastLine s) {n j : Nat} (length : n ≤ line.length) (within : j < n) :
    above.length + j < l.span.stop.offset ↔
      j < if i + 1 = l.span.stop.line then l.span.stop.column - 1 else n := by
  obtain ⟨bound, place⟩ := Source.inside_of_locate inside.stop
  have number := here.lineOf_eq (k := j) (by omega)
  have last : l.lastLine s ≤ s.lineOf l.span.stop.offset := by
    rw [lastLine]
    split <;> omega
  rw [inside.stop_line]
  split
  · rename_i same
    have offset := offset_of_line here bound same.symm
    rw [place] at offset
    omega
  · rename_i other
    apply iff_of_true _ within
    by_contra before
    have order := s.lineOf_mono (Nat.le_of_not_lt before)
    omega

section Bounds

variable {start left right : Nat} {content : Text}
  (begins : ∀ j < content.length, l.span.start.offset ≤ start + j ↔ left ≤ j)
  (ends : ∀ j < content.length, start + j < l.span.stop.offset ↔ j < right)
include begins ends

/-- The cells of a glyph of the label are those from where the label begins to where it ends. -/
theorem owner_has_iff {k j : Nat} (owner : (Text.owners 0 0 content)[k]? = some j) :
    j < content.length ∧ (l.Has (start + j) ↔
      (Text.expandTabs (content.take left)).length ≤ k ∧
        k < (Text.expandTabs (content.take right)).length) := by
  have bounds := Text.owners_bounds j (List.mem_of_getElem? owner)
  rw [Nat.zero_add] at bounds
  rw [Has, begins j bounds.2, ends j bounds.2, ← Text.owner_lt_iff owner right, ← Nat.not_lt,
    ← Nat.not_lt (a := k), ← Text.owner_lt_iff owner left]
  exact ⟨bounds.2, Iff.rfl⟩

theorem underlines_of_bounds : l.Underlines start content
    (Text.expandTabs (content.take left)).length
    (max (Text.expandTabs (content.take right)).length
      ((Text.expandTabs (content.take left)).length + 1)) := by
  have owner_of {k : Nat} (under : k < (Text.expandTabs (content.take right)).length) :
      ∃ j, (Text.owners 0 0 content)[k]? = some j := by
    obtain ⟨behind, whole, _⟩ := Text.owners_take content right
    rw [Text.expandTabs, ← Text.owners_length 0 0] at under
    rw [whole, List.getElem?_append_left under]
    exact ⟨_, List.getElem?_eq_getElem under⟩
  constructor
  · rintro ⟨j, within, own⟩ k
    -- The label has a glyph, so its cells end behind where they begin.
    obtain ⟨cell, owner⟩ := Text.exists_owner within
    have inner := (owner_has_iff begins ends owner).2.1 own
    constructor
    · rintro ⟨low, high⟩
      obtain ⟨j, owner⟩ := owner_of (k := k) (by omega)
      exact ⟨j, owner, (owner_has_iff begins ends owner).2.2 ⟨low, by omega⟩⟩
    · rintro ⟨j, owner, own⟩
      have bounds := (owner_has_iff begins ends owner).2.1 own
      omega
  · intro untouched
    by_contra longer
    have under : (Text.expandTabs (content.take left)).length <
        (Text.expandTabs (content.take right)).length := by omega
    obtain ⟨j, owner⟩ := owner_of under
    obtain ⟨within, own⟩ := owner_has_iff begins ends owner
    exact untouched ⟨j, within, own.2 ⟨Nat.le_refl _, under⟩⟩
  · rw [← Text.filter_owners]
    congr 1
    apply List.filter_congr
    intro j member
    have bounds := Text.owners_bounds j member
    have front := begins j (by omega)
    rw [decide_eq_decide]
    omega

end Bounds

/-- Each line that a label reaches is marked below the cells of the label's glyphs. -/
theorem cells_underline (inside : l.Inside s) (here : s.LineAt i above line below)
    (first : l.firstLine s ≤ i + 1) (last : i + 1 ≤ l.lastLine s) :
    l.Underlines above.length (Source.dropReturns line)
      (l.cells (i + 1) (Source.dropReturns line)).1 (l.cells (i + 1) (Source.dropReturns line)).2 := by
  have shorter : (Source.dropReturns line).length ≤ line.length := by
    obtain ⟨n, whole⟩ := Source.dropReturns_append line
    conv => rhs; rw [whole]
    rw [List.length_append]
    exact Nat.le_add_right _ _
  rw [cells, inside.lines_eq]
  refine underlines_of_bounds (fun j within => ?_) fun j within => ?_
  · exact inside.start_le_iff here first (by omega)
  · exact inside.lt_stop_iff here last shorter within

end Label

end FormatLint
