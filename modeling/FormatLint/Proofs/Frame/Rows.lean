import FormatLint.Proofs.Analysis.Sorting
import FormatLint.Proofs.Frame.Cells

/-!
What is printed of a diagnostic. `Diagnostic.render_rows` says that each line in a frame is printed once,
in order, and below it one row for each label that reaches the line.
-/

namespace FormatLint

structure Mark where
  label : Label
  first : Nat
  stop : Nat

namespace Mark

/-- The row of a mark below a line. Its margin is as wide as that of the line, and a message follows
where the label ends. -/
def row (s : Source) (width number : Nat) (m : Mark) : Text :=
  Text.fill width ' ' ++ Text.ofString " | " ++ Text.fill m.first ' ' ++
    Text.fill (m.stop - m.first) (if m.label.primary then '^' else '-') ++
      if number = m.label.lastLine s ∧ m.label.message ≠ [] then .char ' ' :: m.label.message else []

/-- The marks below a line: one for each label that reaches the line, from left to right, below the
cells of its own glyphs. -/
structure Below (s : Source) (labels : List Label) (number : Nat) (marks : List Mark) : Prop where
  labels : (marks.map (·.label)).Perm
    (labels.filter fun l => l.firstLine s ≤ number ∧ number ≤ l.lastLine s)
  ordered : marks.Pairwise fun m n => m.first < n.first ∨ m.first = n.first ∧ m.stop ≤ n.stop
  cells : ∃ start content, s.lineStarts[number - 1]? = some start ∧ s.line? number = some content ∧
    (∀ k : Nat, (Text.expandTabs content)[k]? =
      (Text.owners 0 0 content)[k]?.bind fun i => content[i]?.map Text.shown) ∧
    ∀ m ∈ marks, m.label.Underlines start content m.first m.stop

end Mark

/-- The row of a line: its number, at the right of the margin, and the line with its tabs expanded. -/
def Source.numbered (s : Source) (width number : Nat) : Text :=
  Text.trimRight (Text.fill (width - (Text.ofNat number).length) ' ' ++ Text.ofNat number ++
    Text.ofString " | " ++ Text.expandTabs ((s.line? number).getD []))

/-- The blocks of the given lines one below the other. Dots stand for lines that are left out. -/
def listing (block : Nat → List Text) : List Nat → List Text
  | [] => []
  | [n] => block n
  | n :: next :: later =>
    block n ++ (if next = n + 1 then [] else [Text.ofString "..."]) ++ listing block (next :: later)

theorem listing_run (block : Nat → List Text) (start n : Nat) {later : List Nat}
    (apart : ∀ m ∈ later.head?, start + n + 1 < m) :
    listing block (List.range' start (n + 1) ++ later) =
      (List.range' start (n + 1)).flatMap block ++
        if later = [] then [] else Text.ofString "..." :: listing block later := by
  induction n generalizing start with
  | zero =>
      cases later with
      | nil => simp [listing]
      | cons m later =>
          have gap : m ≠ start + 1 := by
            have behind := apart m rfl
            omega
          simp [listing, gap]
  | succ n ih =>
      have rest := ih (start + 1) fun m member => by
        have behind := apart m member
        omega
      rw [List.range'_succ, List.cons_append, List.flatMap_cons, List.append_assoc, ← rest,
        List.range'_succ, List.cons_append, listing, if_pos rfl, List.append_nil]

namespace Frame

variable {f : Frame}

theorem lines_eq (first : 1 ≤ f.first) (last : f.first ≤ f.last) :
    ∃ n : Nat, f.first.toNat + n = f.last.toNat ∧ f.lines = List.range' f.first.toNat (n + 1) := by
  refine ⟨f.last.toNat - f.first.toNat, by omega, ?_⟩
  have count : (f.last + 1 - f.first).toNat = f.last.toNat - f.first.toNat + 1 := by omega
  rw [lines, count, List.range'_eq_map_range]
  apply List.map_congr_left
  intro step _
  omega

theorem mem_lines (first : 1 ≤ f.first) (last : f.first ≤ f.last) {n : Nat} :
    n ∈ f.lines ↔ f.first ≤ n ∧ (n : Int) ≤ f.last := by
  obtain ⟨count, ends, lines⟩ := lines_eq first last
  rw [lines, List.mem_range'_1]
  omega

variable {lineCount : Nat} {frames : List Frame}

theorem Apart.tail (apart : Apart lineCount (f :: frames)) : Apart lineCount frames :=
  ⟨fun g member => apart.bounds g (List.mem_cons_of_mem f member),
    (List.pairwise_cons.1 apart.apart).2⟩

theorem Apart.mem_iff (apart : Apart lineCount frames) {n : Nat} :
    n ∈ frames.flatMap lines ↔ ∃ f ∈ frames, f.first ≤ n ∧ (n : Int) ≤ f.last := by
  rw [List.mem_flatMap]
  constructor
  · rintro ⟨f, member, inside⟩
    have bounds := apart.bounds f member
    exact ⟨f, member, (mem_lines bounds.1 bounds.2.1).1 inside⟩
  · rintro ⟨f, member, inside⟩
    have bounds := apart.bounds f member
    exact ⟨f, member, (mem_lines bounds.1 bounds.2.1).2 inside⟩

theorem Apart.increasing (apart : Apart lineCount frames) :
    (frames.flatMap lines).Pairwise (· < ·) := by
  apply List.pairwise_flatMap.2
  constructor
  · intro f member
    obtain ⟨n, _, lines⟩ := lines_eq (apart.bounds f member).1 (apart.bounds f member).2.1
    rw [lines]
    exact List.pairwise_lt_range' 1
  · apply apart.apart.imp_of_mem
    intro f g member member' order n inside m inside'
    have here := (mem_lines (apart.bounds f member).1 (apart.bounds f member).2.1).1 inside
    have there := (mem_lines (apart.bounds g member').1 (apart.bounds g member').2.1).1 inside'
    omega

theorem Apart.getLast? (apart : Apart lineCount frames) {last : Frame}
    (final : frames.getLast? = some last) :
    (frames.flatMap lines).getLast? = some last.last.toNat := by
  obtain ⟨front, rfl⟩ := List.getLast?_eq_some_iff.1 final
  have bounds := apart.bounds last (by simp)
  obtain ⟨n, ends, lines⟩ := lines_eq bounds.1 bounds.2.1
  rw [List.flatMap_append, List.flatMap_singleton, lines, List.getLast?_append, List.getLast?_range',
    if_neg (Nat.succ_ne_zero n), Option.some_or, ← ends]
  rfl

/-- Frames with gaps between them are a listing of their lines. -/
theorem Apart.listing_eq (apart : Apart lineCount frames) (render : Row → Text)
    (gap : render .gap = Text.ofString "...") (rows : Nat → List Row) :
    ([Row.gap].intercalate (frames.map fun f => f.lines.flatMap rows)).map render =
      listing (fun n => (rows n).map render) (frames.flatMap lines) := by
  induction frames with
  | nil => rfl
  | cons f later ih =>
      have bounds := apart.bounds f List.mem_cons_self
      obtain ⟨n, ends, here⟩ := lines_eq bounds.1 bounds.2.1
      have behind : ∀ m ∈ (later.flatMap lines).head?, f.first.toNat + n + 1 < m := by
        intro m member
        obtain ⟨g, listed, inside⟩ := apart.tail.mem_iff.1 (List.mem_of_mem_head? member)
        have order := (List.pairwise_cons.1 apart.apart).1 g listed
        omega
      have run := listing_run (fun n => (rows n).map render) f.first.toNat n behind
      rw [← here] at run
      rw [List.flatMap_cons, run]
      cases later with
      | nil => simp [List.map_flatMap]
      | cons g later =>
          have nonempty : (g :: later).flatMap lines ≠ [] := by
            have bounds := apart.tail.bounds g List.mem_cons_self
            apply List.ne_nil_of_mem (a := g.first.toNat)
            apply apart.tail.mem_iff.2
            exact ⟨g, List.mem_cons_self, by omega, by omega⟩
          rw [if_neg nonempty, ← ih apart.tail, List.map_cons, List.map_cons,
            List.intercalate_cons_cons, List.map_append, List.map_append, List.map_flatMap]
          simp [gap]

end Frame

namespace Label

variable {s : Source} {l : Label}

theorem touches_iff (inside : l.Inside s) (number : Nat) :
    l.touches number = true ↔ l.firstLine s ≤ number ∧ number ≤ l.lastLine s := by
  rw [touches, inside.lines_eq, Bool.and_eq_true, decide_eq_true_eq, decide_eq_true_eq]

def mark (l : Label) (number : Nat) (content : Text) : Mark :=
  ⟨l, (l.cells number content).1, (l.cells number content).2⟩

end Label

namespace Mark

variable {s : Source} {labels : List Label} {number : Nat} {content : Text}

/-- The marks below a line, in the order in which they are printed. -/
def ofLine (labels : List Label) (number : Nat) (content : Text) : List Mark :=
  sortByPair (fun m => (m.first, m.stop)) ((labels.filter (·.touches number)).map (·.mark number content))

theorem ofLine_below (inside : ∀ l ∈ labels, l.Inside s) (positive : 1 ≤ number)
    (last : number ≤ s.lineCount) :
    Below s labels number (ofLine labels number ((s.line? number).getD [])) := by
  obtain ⟨i, rfl⟩ := Nat.exists_eq_add_of_le' positive
  obtain ⟨above, line, below, here⟩ := Source.exists_lineAt (Nat.lt_of_succ_le last)
  rw [here.line?_eq, Option.getD_some]
  have reach : labels.filter (·.touches (i + 1)) =
      labels.filter fun l => l.firstLine s ≤ i + 1 ∧ i + 1 ≤ l.lastLine s := by
    apply List.filter_congr
    intro l member
    rw [Bool.eq_iff_iff, Label.touches_iff (inside l member), decide_eq_true_eq]
  constructor
  · have same := (sortByPair_perm (fun m : Mark => ((m.first : Int), (m.stop : Int)))
      ((labels.filter (·.touches (i + 1))).map (·.mark (i + 1) (Source.dropReturns line)))).map
        (·.label)
    rw [List.map_map] at same
    have kept : (labels.filter (·.touches (i + 1))).map
        ((·.label) ∘ fun l => l.mark (i + 1) (Source.dropReturns line)) =
        labels.filter (·.touches (i + 1)) := List.map_id _
    rw [kept] at same
    rw [← reach]
    exact same
  · apply (sortByPair_sorted _ _).imp
    intro m n order
    simp only [pairLE, Bool.or_eq_true, Bool.and_eq_true, decide_eq_true_eq, beq_iff_eq] at order
    omega
  · refine ⟨above.length, Source.dropReturns line, here.start, here.line?_eq,
      Text.expandTabsFrom_getElem? 0 0 _, fun m member => ?_⟩
    obtain ⟨l, listed, rfl⟩ := List.mem_map.1 (mem_sortByPair.1 member)
    rw [reach, List.mem_filter, decide_eq_true_eq] at listed
    exact Label.cells_underline (inside l listed.1) here listed.2.1 listed.2.2

theorem map_render_marks (inside : ∀ l ∈ labels, l.Inside s) (width : Nat) :
    (Row.marks labels number content).map (Row.render width) =
      (ofLine labels number content).map (row s width number) := by
  have pairs : (labels.filter (·.touches number)).map (·.mark number content) =
      ((labels.filter (·.touches number)).map fun l => (l, l.cells number content)).map
        fun m => ⟨m.1, m.2.1, m.2.2⟩ := by
    rw [List.map_map]
    rfl
  have sorted := @sortByPair_map _ _ (fun m : Label × Nat × Nat => ((m.2.1 : Int), (m.2.2 : Int)))
    (fun m : Mark => ((m.first : Int), (m.stop : Int))) (fun m => ⟨m.1, m.2.1, m.2.2⟩)
    ((labels.filter (·.touches number)).map fun l => (l, l.cells number content))
    fun _ _ _ _ => rfl
  rw [Row.marks, ofLine, pairs, sorted, List.map_map, List.map_map]
  apply List.map_congr_left
  intro m member
  obtain ⟨l, listed, rfl⟩ := List.mem_map.1 (mem_sortByPair.1 member)
  have last := (inside l (List.mem_of_mem_filter listed)).lines_eq
  simp only [Function.comp_apply, Row.render, row, last]
  by_cases ends : number = l.lastLine s
  · simp [ends]
  · simp [ends]

end Mark

theorem Text.length_ofNat_mono {m n : Nat} (order : m ≤ n) :
    (Text.ofNat m).length ≤ (Text.ofNat n).length := by
  have positive : 0 < (Nat.toDigits 10 n).length := Nat.length_toDigits_pos
  rw [Text.ofNat, Text.ofNat, List.length_map, List.length_map,
    Nat.length_toDigits_le_iff (by decide) positive]
  exact Nat.lt_of_le_of_lt order ((Nat.length_toDigits_le_iff (by decide) positive).1 (Nat.le_refl _))

theorem Text.ofInt_of_nonneg {z : Int} (nonneg : 0 ≤ z) : Text.ofInt z = Text.ofNat z.toNat := by
  obtain ⟨n, rfl⟩ := Int.eq_ofNat_of_zero_le nonneg
  rfl

namespace Diagnostic

theorem exists_primarySpan {d : Diagnostic} (labelled : d.labels ≠ []) :
    ∃ place, d.primarySpan? = some place := by
  rw [primarySpan?]
  split
  · exact ⟨_, rfl⟩
  · obtain ⟨l, later, whole⟩ := List.exists_cons_of_ne_nil labelled
    exact ⟨l.span, by rw [whole]; rfl⟩

/-- A diagnostic is printed under its headline and place: each line at most `context` lines away from a
label once, in order, with a margin that every line number fits into, and directly below it one row for
each label that reaches the line. -/
theorem render_rows {d : Diagnostic} {s : Source} {context : Int} (labelled : d.labels ≠ [])
    (inside : ∀ l ∈ d.labels, l.Inside s) (nonneg : 0 ≤ context) :
    ∃ (numbers : List Nat) (marks : Nat → List Mark) (width : Nat) (place : Span),
      numbers.Pairwise (· < ·) ∧ numbers.getLast?.map (fun n => (Text.ofNat n).length) = some width ∧
      (∀ n : Nat, n ∈ numbers ↔ (1 ≤ n ∧ n ≤ s.lineCount) ∧ ∃ l ∈ d.labels,
        l.firstLine s - context ≤ n ∧ n ≤ l.lastLine s + context) ∧
      (∀ n ∈ numbers, (Text.ofNat n).length ≤ width ∧ Mark.Below s d.labels n (marks n)) ∧
      d.primarySpan? = some place ∧
      d.render s context = Text.ofLines
        ([d.headline, Text.fill width ' ' ++ "--> " ++ place.location, Text.fill width ' ' ++ " |"] ++
          listing (fun n => s.numbered width n :: (marks n).map (Mark.row s width n)) numbers ++
          [Text.fill width ' ' ++ " |"] ++
          (d.help.filter (· ≠ [])).toList.map (Text.fill width ' ' ++ " = help: " ++ ·)) := by
  have present := Frame.ofLabels_ne_nil labelled context s.lineCount
  have apart := Frame.ofLabels_apart inside nonneg
  have shown := Frame.ofLabels_shows inside nonneg
  have final := List.getLast?_eq_some_getLast present
  generalize (Frame.ofLabels d.labels context s.lineCount).getLast present = last at final
  obtain ⟨place, found⟩ := exists_primarySpan labelled
  have ends := apart.getLast? final
  have lastBounds := apart.bounds last (List.mem_of_getLast? final)
  refine ⟨(Frame.ofLabels d.labels context s.lineCount).flatMap Frame.lines,
    fun n => Mark.ofLine d.labels n ((s.line? n).getD []), (Text.ofNat last.last.toNat).length, place,
    apart.increasing, by rw [ends]; rfl, fun n => ?_, fun n member => ?_, found, ?_⟩
  · have range : (1 ≤ (n : Int) ∧ (n : Int) ≤ s.lineCount) ↔ 1 ≤ n ∧ n ≤ s.lineCount := by omega
    rw [apart.mem_iff, ← range]
    exact shown n
  · obtain ⟨f, listed, within⟩ := apart.mem_iff.1 member
    have bounds := apart.bounds f listed
    refine ⟨Text.length_ofNat_mono ?_, Mark.ofLine_below inside (by omega) (by omega)⟩
    -- The line numbers grow, so the last one needs the most room.
    obtain ⟨front, whole⟩ := List.getLast?_eq_some_iff.1 ends
    have increasing := apart.increasing
    rw [whole] at member increasing
    rcases List.mem_append.1 member with earlier | same
    · exact Nat.le_of_lt ((List.pairwise_append.1 increasing).2.2 n earlier _ (by simp))
    · exact Nat.le_of_eq (List.mem_singleton.1 same)
  · have width : (Text.ofInt last.last).length = (Text.ofNat last.last.toNat).length := by
      rw [Text.ofInt_of_nonneg (by omega)]
    have rows := apart.listing_eq (Row.render (Text.ofNat last.last.toNat).length) rfl
      (Row.ofLine s d.labels)
    have blocks (n : Nat) : (Row.ofLine s d.labels n).map (Row.render (Text.ofNat last.last.toNat).length) =
        s.numbered (Text.ofNat last.last.toNat).length n ::
          (Mark.ofLine d.labels n ((s.line? n).getD [])).map
            (Mark.row s (Text.ofNat last.last.toNat).length n) := by
      rw [← Mark.map_render_marks inside]
      rfl
    simp only [blocks] at rows
    rw [← rows, render, found]
    dsimp only
    rw [final, Option.map_some, Option.getD_some, width]
    cases d.help with
    | none => rfl
    | some advice => cases advice <;> rfl

/-- Two lines with tabs, the first of which ends with a carriage return. -/
def tabbed : Source := ⟨"t.c", "\tx\ty\r\n\tz"⟩

/-- The first label takes in the end of the line, the second one goes on behind it. -/
def crossing : Diagnostic :=
  ⟨.typeMismatch, "m", [⟨⟨"t.c", ⟨2, 1, 3⟩, ⟨7, 2, 2⟩⟩, "b", false⟩,
    ⟨⟨"t.c", ⟨1, 1, 2⟩, ⟨6, 2, 1⟩⟩, "a", true⟩], none⟩

theorem render_rows_crossing :
    crossing.labels ≠ [] ∧ (∀ l ∈ crossing.labels, l.Inside tabbed) ∧ (0 : Int) ≤ 0 ∧
      (∃ (numbers : List Nat) (marks : Nat → List Mark) (width : Nat),
        (∀ n : Nat, n ∈ numbers ↔ (1 ≤ n ∧ n ≤ tabbed.lineCount) ∧ ∃ l ∈ crossing.labels,
          l.firstLine tabbed - 0 ≤ (n : Int) ∧ (n : Int) ≤ l.lastLine tabbed + 0) ∧
        ∀ n ∈ numbers, (Text.ofNat n).length ≤ width ∧
          Mark.Below tabbed crossing.labels n (marks n)) ∧
      crossing.render tabbed 0 = Text.ofLines
        ["warning[TypeMismatch]: m", " --> t.c:1:2", "  |", "1 |     x   y", "  |     ^^^^^ a",
          "  |      ----", "2 |     z", "  | ---- b", "  |"] := by
  have inside : ∀ l ∈ crossing.labels, l.Inside tabbed := by
    intro l member
    rcases List.mem_cons.1 member with rfl | member
    · exact ⟨rfl, rfl, by decide⟩
    · rw [List.mem_singleton.1 member]
      exact ⟨rfl, rfl, by decide⟩
  obtain ⟨numbers, marks, width, _, _, _, framed, below, _, _⟩ :=
    render_rows (d := crossing) (by decide) inside (Int.le_refl 0)
  exact ⟨by decide, inside, by decide, ⟨numbers, marks, width, framed, below⟩, by cbv⟩

end Diagnostic

end FormatLint
