import FormatLint.Proofs.Guarded.Frames
import FormatLint.Proofs.Source.Coordinates

/-!
Which lines code frames show. `Frame.ofLabels_covers` says that they show the lines around the labels
and no others, and that frames neither meet nor touch.
-/

namespace FormatLint

namespace Source

variable {s : Source} {o : Nat}

/-- A line begins at the start of the text and behind each line feed. -/
theorem position_column_eq_one_iff (inside : o ≤ s.content.length) (positive : 0 < o) :
    (s.position o).column = 1 ↔ s.content[o - 1]? = some (.char '\n') := by
  obtain ⟨i, above, row, below, k, here, within, rfl⟩ := exists_lineAt_offset inside
  rw [here.position_eq within, here.content]
  cases k with
  | zero =>
      rcases List.eq_nil_or_concat above with rfl | ⟨front, last, rfl⟩
      · cases positive
      · have begins := here.begins
        rw [List.concat_eq_append] at begins ⊢
        simp [begins last List.getLast?_concat]
  | succ k =>
      have inner : row[k]? ≠ some (.char '\n') := by
        intro feed
        exact here.unfed (List.mem_of_getElem? feed)
      have place : above.length + (k + 1) - 1 = above.length + k := by omega
      rw [place, List.getElem?_append_right (Nat.le_add_right _ _), Nat.add_sub_cancel_left,
        List.getElem?_append_left within]
      exact iff_of_false (by simp) inner

theorem lineOf_pred (feed : s.content[o - 1]? = some (.char '\n')) (positive : 0 < o) :
    s.lineOf o = s.lineOf (o - 1) + 1 := by
  obtain ⟨o, rfl⟩ := Nat.exists_eq_add_of_le' positive
  rw [Nat.add_sub_cancel] at feed ⊢
  rw [lineOf, lineOf, List.take_add_one, feed, List.count_append]
  rfl

theorem lineOf_le_lineCount (s : Source) (o : Nat) : s.lineOf o ≤ s.lineCount := by
  rw [lineCount_eq]
  exact Nat.succ_le_succ ((List.take_sublist o s.content).count_le _)

end Source

namespace Label

/-- Both ends of the label are places of the text, one behind the other. -/
structure Inside (s : Source) (l : Label) : Prop where
  start : s.locate l.span.start.offset = .ok l.span.start
  stop : s.locate l.span.stop.offset = .ok l.span.stop
  ordered : l.span.start.offset ≤ l.span.stop.offset

def firstLine (s : Source) (l : Label) : Nat := s.lineOf l.span.start.offset

/-- The line in which the label ends. If a line feed is the last of its glyphs, the line that begins
behind it does not count. -/
def lastLine (s : Source) (l : Label) : Nat :=
  if l.span.start.offset < l.span.stop.offset ∧
      s.content[l.span.stop.offset - 1]? = some (.char '\n') then
    s.lineOf l.span.stop.offset - 1
  else s.lineOf l.span.stop.offset

variable {s : Source} {l : Label}

theorem Inside.start_line (inside : l.Inside s) : l.span.start.line = l.firstLine s := by
  obtain ⟨within, same⟩ := Source.inside_of_locate inside.start
  rw [← same]
  exact (Source.position_coordinates within).line

theorem Inside.stop_line (inside : l.Inside s) :
    l.span.stop.line = s.lineOf l.span.stop.offset := by
  obtain ⟨within, same⟩ := Source.inside_of_locate inside.stop
  rw [← same]
  exact (Source.position_coordinates within).line

theorem Inside.lines_eq (inside : l.Inside s) : l.lines = (l.firstLine s, l.lastLine s) := by
  obtain ⟨within, same⟩ := Source.inside_of_locate inside.stop
  have column := Source.position_column_eq_one_iff within
  rw [same] at column
  have agree : l.span.stop.line > l.span.start.line ∧ l.span.stop.column = 1 ↔
      l.span.start.offset < l.span.stop.offset ∧
        s.content[l.span.stop.offset - 1]? = some (.char '\n') := by
    rw [inside.start_line, inside.stop_line]
    constructor
    · rintro ⟨later, first⟩
      have order : l.span.start.offset < l.span.stop.offset := by
        by_contra before
        have back := s.lineOf_mono (Nat.le_of_not_lt before)
        exact Nat.not_lt.2 back later
      exact ⟨order, (column (Nat.zero_lt_of_lt order)).1 first⟩
    · rintro ⟨order, feed⟩
      have positive := Nat.zero_lt_of_lt order
      have next := Source.lineOf_pred feed positive
      have before := s.lineOf_mono (Nat.le_sub_one_of_lt order)
      rw [firstLine]
      exact ⟨by omega, (column positive).2 feed⟩
  rw [lines, lastLine, inside.start_line, inside.stop_line] at *
  simp only [agree]

theorem firstLine_le_lastLine (inside : l.Inside s) : l.firstLine s ≤ l.lastLine s := by
  rw [firstLine, lastLine]
  split
  · rename_i own
    have next := Source.lineOf_pred own.2 (Nat.zero_lt_of_lt own.1)
    have before := s.lineOf_mono (Nat.le_sub_one_of_lt own.1)
    omega
  · exact s.lineOf_mono inside.ordered

theorem lastLine_le_lineCount (s : Source) (l : Label) : l.lastLine s ≤ s.lineCount := by
  have last := s.lineOf_le_lineCount l.span.stop.offset
  rw [lastLine]
  split
  · omega
  · exact last

end Label

namespace Frame

/-- The line stands in the frame. -/
def Shows (f : Frame) (line : Int) : Prop := f.first ≤ line ∧ line ≤ f.last

/-- The frames are not empty, and none starts in front of an earlier one. -/
structure Ordered (frames : List Frame) : Prop where
  nonempty : ∀ f ∈ frames, f.first ≤ f.last
  sorted : frames.Pairwise fun f g => f.first ≤ g.first

theorem Ordered.tail {f : Frame} {later : List Frame} (ordered : Ordered (f :: later)) :
    Ordered later :=
  ⟨fun g member => ordered.nonempty g (List.mem_cons_of_mem f member),
    (List.pairwise_cons.1 ordered.sorted).2⟩

/-- A frame may take in the one behind it. -/
theorem Ordered.widen {current next : Frame} {later : List Frame}
    (ordered : Ordered (current :: next :: later)) :
    Ordered (⟨current.first, max current.last next.last⟩ :: later) := by
  obtain ⟨behind, sorted⟩ := List.pairwise_cons.1 ordered.sorted
  constructor
  · intro f member
    rcases List.mem_cons.1 member with rfl | member
    · have here := ordered.nonempty current List.mem_cons_self
      dsimp only
      omega
    · exact ordered.tail.tail.nonempty f member
  · apply List.pairwise_cons.2
    exact ⟨fun f member => behind f (List.mem_cons_of_mem next member), ordered.tail.tail.sorted⟩

theorem joinFrom_shows {current : Frame} {later : List Frame} (ordered : Ordered (current :: later))
    (line : Int) :
    (∃ f ∈ joinFrom current later, f.Shows line) ↔ ∃ f ∈ current :: later, f.Shows line := by
  induction later generalizing current with
  | nil => rw [joinFrom]
  | cons next later ih =>
      rw [joinFrom]
      split
      · rename_i meets
        have order := (List.pairwise_cons.1 ordered.sorted).1 next List.mem_cons_self
        have here := ordered.nonempty current List.mem_cons_self
        have there := ordered.tail.nonempty next List.mem_cons_self
        have union : Shows ⟨current.first, max current.last next.last⟩ line ↔
            current.Shows line ∨ next.Shows line := by
          simp only [Shows]
          omega
        rw [ih ordered.widen]
        simp only [List.mem_cons, exists_eq_or_imp, union, or_assoc]
      · have rest := ih ordered.tail
        simp only [List.mem_cons, exists_eq_or_imp] at rest ⊢
        rw [rest]

/-- Every frame starts at or behind the first one, and ends in front of the line before the next. -/
theorem joinFrom_apart {current : Frame} {later : List Frame} (ordered : Ordered (current :: later)) :
    (∀ f ∈ joinFrom current later, current.first ≤ f.first ∧ f.first ≤ f.last) ∧
      (joinFrom current later).Pairwise fun f g => f.last + 1 < g.first := by
  induction later generalizing current with
  | nil =>
      rw [joinFrom]
      have here := ordered.nonempty current List.mem_cons_self
      exact ⟨fun f member => by rw [List.mem_singleton.1 member]; omega, List.pairwise_singleton _ _⟩
  | cons next later ih =>
      rw [joinFrom]
      split
      · exact ih ordered.widen
      · rename_i apart
        obtain ⟨behind, separate⟩ := ih ordered.tail
        have here := ordered.nonempty current List.mem_cons_self
        constructor
        · intro f member
          rcases List.mem_cons.1 member with rfl | member
          · omega
          · have bounds := behind f member
            omega
        · apply List.pairwise_cons.2
          refine ⟨fun f member => ?_, separate⟩
          have bounds := behind f member
          omega

variable {s : Source} {context : Int}

theorem around_eq {l : Label} (inside : l.Inside s) (context : Int) :
    around context s.lineCount l =
      ⟨max 1 (l.firstLine s - context), min s.lineCount (l.lastLine s + context)⟩ := by
  rw [around, inside.lines_eq]

theorem around_nonempty {l : Label} (inside : l.Inside s) (nonneg : 0 ≤ context) :
    (around context s.lineCount l).first ≤ (around context s.lineCount l).last := by
  have order := Label.firstLine_le_lastLine inside
  have last := Label.lastLine_le_lineCount s l
  have first : 1 ≤ l.firstLine s := Nat.succ_pos _
  rw [around_eq inside]
  dsimp only
  omega

theorem around_shows {l : Label} (inside : l.Inside s) (context line : Int) :
    (around context s.lineCount l).Shows line ↔
      (1 ≤ line ∧ line ≤ s.lineCount) ∧
        l.firstLine s - context ≤ line ∧ line ≤ l.lastLine s + context := by
  rw [around_eq inside, Shows]
  dsimp only
  omega

theorem sorted_ordered {labels : List Label} (inside : ∀ l ∈ labels, l.Inside s)
    (nonneg : 0 ≤ context) :
    Ordered (sortByPair (fun f => (f.first, f.last)) (labels.map (around context s.lineCount))) := by
  constructor
  · intro f member
    obtain ⟨l, listed, rfl⟩ := List.mem_map.1 (mem_sortByPair.1 member)
    exact around_nonempty (inside l listed) nonneg
  · apply (sortByPair_sorted _ _).imp
    intro f g order
    simp only [pairLE, Bool.or_eq_true, Bool.and_eq_true, decide_eq_true_eq, beq_iff_eq] at order
    omega

/-- Ranges of lines, at least one line apart. -/
structure Apart (lineCount : Nat) (frames : List Frame) : Prop where
  bounds : ∀ f ∈ frames, 1 ≤ f.first ∧ f.first ≤ f.last ∧ f.last ≤ lineCount
  apart : frames.Pairwise fun f g => f.last + 1 < g.first

theorem ofLabels_apart {labels : List Label} (inside : ∀ l ∈ labels, l.Inside s)
    (nonneg : 0 ≤ context) : Apart s.lineCount (ofLabels labels context s.lineCount) := by
  have within := ofLabels_within labels context s.lineCount
  have ordered := sorted_ordered inside nonneg
  rw [ofLabels] at within ⊢
  generalize sortByPair _ _ = frames at ordered within ⊢
  cases frames with
  | nil => exact ⟨by simp [join], .nil⟩
  | cons first later =>
      obtain ⟨bounds, apart⟩ := joinFrom_apart ordered
      refine ⟨fun f member => ?_, apart⟩
      exact ⟨(within f member).1, (bounds f member).2, (within f member).2⟩

theorem ofLabels_shows {labels : List Label} (inside : ∀ l ∈ labels, l.Inside s)
    (nonneg : 0 ≤ context) (line : Int) :
    (∃ f ∈ ofLabels labels context s.lineCount, f.Shows line) ↔
      (1 ≤ line ∧ line ≤ s.lineCount) ∧
        ∃ l ∈ labels, l.firstLine s - context ≤ line ∧ line ≤ l.lastLine s + context := by
  have ordered := sorted_ordered inside nonneg
  have listed (f : Frame) : f ∈ sortByPair (fun f => (f.first, f.last))
      (labels.map (around context s.lineCount)) ↔ ∃ l ∈ labels, around context s.lineCount l = f :=
    mem_sortByPair.trans List.mem_map
  have joined : (∃ f ∈ ofLabels labels context s.lineCount, f.Shows line) ↔
      ∃ f ∈ sortByPair (fun f => (f.first, f.last)) (labels.map (around context s.lineCount)),
        f.Shows line := by
    rw [ofLabels]
    generalize sortByPair _ _ = frames at ordered ⊢
    cases frames with
    | nil => exact Iff.rfl
    | cons first later => exact joinFrom_shows ordered line
  rw [joined]
  constructor
  · rintro ⟨f, member, shown⟩
    obtain ⟨l, label, rfl⟩ := (listed f).1 member
    obtain ⟨range, near⟩ := (around_shows (inside l label) context line).1 shown
    exact ⟨range, l, label, near⟩
  · rintro ⟨range, l, label, near⟩
    exact ⟨_, (listed _).2 ⟨l, label, rfl⟩,
      (around_shows (inside l label) context line).2 ⟨range, near⟩⟩

/-- Frames are ranges of lines of the source, at least one line apart, and show the lines around the
labels and no others. -/
theorem ofLabels_covers {labels : List Label} (labelled : labels ≠ [])
    (inside : ∀ l ∈ labels, l.Inside s) (nonneg : 0 ≤ context) :
    ofLabels labels context s.lineCount ≠ [] ∧
      (∀ f ∈ ofLabels labels context s.lineCount,
        1 ≤ f.first ∧ f.first ≤ f.last ∧ f.last ≤ s.lineCount) ∧
      (ofLabels labels context s.lineCount).Pairwise (fun f g => f.last + 1 < g.first) ∧
      ∀ line : Int, (∃ f ∈ ofLabels labels context s.lineCount, f.first ≤ line ∧ line ≤ f.last) ↔
        (1 ≤ line ∧ line ≤ s.lineCount) ∧
          ∃ l ∈ labels, l.firstLine s - context ≤ line ∧ line ≤ l.lastLine s + context := by
  obtain ⟨bounds, apart⟩ := ofLabels_apart inside nonneg
  exact ⟨ofLabels_ne_nil labelled context s.lineCount, bounds, apart, ofLabels_shows inside nonneg⟩

/-- Seven lines. The label on the second one takes its line feed in. -/
def spread : Source := ⟨"t.c", "a\nb\nc\nd\ne\nf\ng"⟩

def spreadLabels : List Label :=
  [⟨⟨"t.c", ⟨12, 7, 1⟩, ⟨13, 7, 2⟩⟩, "late", true⟩, ⟨⟨"t.c", ⟨2, 2, 1⟩, ⟨4, 3, 1⟩⟩, "early", false⟩]

theorem ofLabels_covers_spread :
    spreadLabels ≠ [] ∧ (∀ l ∈ spreadLabels, l.Inside spread) ∧ (0 : Int) ≤ 1 ∧
      ofLabels spreadLabels 1 spread.lineCount = [⟨1, 3⟩, ⟨6, 7⟩] ∧
      (ofLabels spreadLabels 1 spread.lineCount).Pairwise (fun f g => f.last + 1 < g.first) ∧
      ∀ line : Int, (∃ f ∈ ofLabels spreadLabels 1 spread.lineCount,
        f.first ≤ line ∧ line ≤ f.last) ↔ (1 ≤ line ∧ line ≤ spread.lineCount) ∧
          ∃ l ∈ spreadLabels, l.firstLine spread - 1 ≤ line ∧ line ≤ l.lastLine spread + 1 := by
  have inside : ∀ l ∈ spreadLabels, l.Inside spread := by
    intro l member
    rcases List.mem_cons.1 member with rfl | member
    · exact ⟨rfl, rfl, by decide⟩
    · rw [List.mem_singleton.1 member]
      exact ⟨rfl, rfl, by decide⟩
  obtain ⟨_, _, apart, shown⟩ := ofLabels_covers (by decide) inside (show (0 : Int) ≤ 1 by decide)
  exact ⟨by decide, inside, by decide, by cbv, apart, shown⟩

end Frame

end FormatLint
