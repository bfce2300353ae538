import FormatLint.Proofs.Analysis.Exact
import FormatLint.Proofs.Token.Below

/-!
The table of lines is a change of coordinates: every offset of a text stands in one column of one line,
and nothing of the text is lost in its lines. `Source.locate_coordinates` says so for whole texts.
-/

namespace FormatLint

theorem Position.after_unfed (p : Position) {t : Text} (unfed : .char '\n' ∉ t) :
    p.after t = ⟨p.offset + t.length, p.line, p.column + t.length⟩ := by
  induction t generalizing p with
  | nil => rfl
  | cons g t ih =>
      obtain ⟨here, behind⟩ := not_or.1 (List.mem_cons.not.1 unfed)
      rw [after_cons, ih _ behind, step, if_neg (Ne.symm here), List.length_cons]
      simp only [Nat.add_assoc, Nat.add_comm 1]

namespace Source

variable {s : Source}

/-- A line between what stands above it and what stands behind it. -/
structure LineAt (s : Source) (i : Nat) (above line below : Text) : Prop where
  content : s.content = above ++ (line ++ below)
  start : s.lineStarts[i]? = some above.length
  listed : s.lines[i]? = some line
  count : above.count (.char '\n') = i
  begins : ∀ g ∈ above.getLast?, g = .char '\n'
  unfed : .char '\n' ∉ line
  ends : ∀ g ∈ below.head?, g = .char '\n'

theorem begins_cons {g : Glyph} {above : Text} (begins : ∀ h ∈ above.getLast?, h = .char '\n')
    (alone : above = [] → g = .char '\n') : ∀ h ∈ (g :: above).getLast?, h = .char '\n' := by
  cases above with
  | nil => simpa using alone rfl
  | cons => simpa [List.getLast?_cons_cons] using begins

theorem eq_nil_of_begins {above : Text} (begins : ∀ g ∈ above.getLast?, g = .char '\n')
    (count : above.count (.char '\n') = 0) : above = [] := by
  rcases List.eq_nil_or_concat above with empty | ⟨front, last, rfl⟩
  · exact empty
  · rw [List.concat_eq_append] at begins count
    rw [begins last List.getLast?_concat, List.count_append] at count
    simp at count

/-- A line of a text that begins at the offset `o`. -/
theorem exists_parts {t line : Text} {i : Nat} (o : Nat)
    (listed : (t.splitOnP (· = .char '\n'))[i]? = some line) :
    ∃ above below, t = above ++ (line ++ below) ∧
      (o :: startsBehind o t)[i]? = some (o + above.length) ∧
      above.count (.char '\n') = i ∧ (∀ g ∈ above.getLast?, g = .char '\n') ∧
      .char '\n' ∉ line ∧ ∀ g ∈ below.head?, g = .char '\n' := by
  induction t generalizing o i line with
  | nil =>
      cases i with
      | zero => cases listed; exact ⟨[], [], rfl, rfl, rfl, by simp, by simp, by simp⟩
      | succ i => cases listed
  | cons g t ih =>
      have place (above : Text) : o + 1 + above.length = o + (g :: above).length := by
        rw [List.length_cons]
        omega
      rw [List.splitOnP_cons_eq_if_modifyHead] at listed
      rw [startsBehind_cons]
      by_cases feed : g = .char '\n'
      · rw [if_pos (by simpa using feed)] at listed
        rw [if_pos feed]
        cases i with
        | zero =>
            cases listed
            exact ⟨[], g :: t, rfl, rfl, rfl, by simp, by simp, by simpa using feed⟩
        | succ i =>
            obtain ⟨above, below, rfl, start, count, begins, unfed, ends⟩ := ih (o + 1) listed
            exact ⟨g :: above, below, rfl, place above ▸ start,
              by rw [feed, List.count_cons_self, count], begins_cons begins fun _ => feed, unfed, ends⟩
      · rw [if_neg (by simpa using feed), List.getElem?_modifyHead] at listed
        rw [if_neg feed]
        cases i with
        | zero =>
            rw [if_pos rfl] at listed
            obtain ⟨rest, first, rfl⟩ := Option.map_eq_some_iff.1 listed
            obtain ⟨above, below, rfl, _, count, begins, unfed, ends⟩ := ih (o + 1) first
            rw [eq_nil_of_begins begins count]
            exact ⟨[], below, rfl, rfl, rfl, by simp,
              List.mem_cons.not.2 (not_or.2 ⟨Ne.symm feed, unfed⟩), ends⟩
        | succ i =>
            rw [if_neg (Nat.succ_ne_zero i)] at listed
            obtain ⟨above, below, rfl, start, count, begins, unfed, ends⟩ := ih (o + 1) listed
            have nonempty : above ≠ [] := by
              intro empty
              rw [empty] at count
              cases count
            exact ⟨g :: above, below, rfl, place above ▸ start,
              by rw [List.count_cons_of_ne feed, count],
              begins_cons begins fun empty => absurd empty nonempty, unfed, ends⟩

theorem exists_lineAt {i : Nat} (inside : i < s.lineCount) :
    ∃ above line below, s.LineAt i above line below := by
  rw [← lines_length] at inside
  have listed := List.getElem?_eq_getElem inside
  obtain ⟨above, below, content, start, count, begins, unfed, ends⟩ := exists_parts 0 listed
  rw [Nat.zero_add] at start
  exact ⟨above, s.lines[i], below, content, start, listed, count, begins, unfed, ends⟩

/-- The line in which an offset stands, counted by the line feeds in front of it. -/
def lineOf (s : Source) (o : Nat) : Nat := (s.content.take o).count (.char '\n') + 1

theorem lineOf_mono (s : Source) {o o' : Nat} (order : o ≤ o') : s.lineOf o ≤ s.lineOf o' :=
  Nat.succ_le_succ ((List.take_prefix_take_left order).sublist.count_le _)

theorem startsBehind_length (start : Nat) (t : Text) :
    (startsBehind start t).length = t.count (.char '\n') := by
  induction t generalizing start with
  | nil => rfl
  | cons g t ih =>
      rw [startsBehind_cons, List.count_cons]
      by_cases feed : g = .char '\n'
      · rw [if_pos feed, List.length_cons, ih, if_pos (by simpa using feed)]
      · rw [if_neg feed, ih, if_neg (by simpa using feed), Nat.add_zero]

theorem lineCount_eq (s : Source) : s.lineCount = s.content.count (.char '\n') + 1 := by
  rw [lineCount, lineStarts, List.length_cons]
  exact congrArg (· + 1) (startsBehind_length 0 s.content)

namespace LineAt

variable {i k o : Nat} {above line below : Text}

theorem take_eq (here : s.LineAt i above line below) (inside : k ≤ line.length) :
    s.content.take (above.length + k) = above ++ line.take k := by
  rw [here.content, List.take_length_add_append, List.take_append_of_le_length inside]

theorem drop_eq (here : s.LineAt i above line below) (inside : k ≤ line.length) :
    s.content.drop (above.length + k) = line.drop k ++ below := by
  rw [here.content, List.drop_length_add_append, List.drop_append_of_le_length inside]

theorem unfed_take (here : s.LineAt i above line below) (k : Nat) : .char '\n' ∉ line.take k :=
  fun member => here.unfed (List.mem_of_mem_take member)

theorem lineOf_eq (here : s.LineAt i above line below) (inside : k ≤ line.length) :
    s.lineOf (above.length + k) = i + 1 := by
  rw [lineOf, here.take_eq inside, List.count_append, here.count,
    List.count_eq_zero.2 (here.unfed_take k)]

theorem first_after (here : s.LineAt i above line below) :
    Position.first.after above = ⟨above.length, i + 1, 1⟩ := by
  rcases List.eq_nil_or_concat above with rfl | ⟨front, last, rfl⟩
  · have zero := here.count
    subst zero
    rfl
  · have begins := here.begins
    have count := here.count
    rw [List.concat_eq_append] at begins count ⊢
    have feed := begins last List.getLast?_concat
    rw [List.count_append, feed, List.count_singleton_self] at count
    rw [Position.after_append, Position.after_cons, Position.after_nil, Position.step, if_pos feed,
      Position.after_line, Position.after_offset, List.length_append, List.length_singleton, ← count]
    simp [Position.first, Nat.add_comm]

theorem position_eq (here : s.LineAt i above line below) (inside : k ≤ line.length) :
    s.position (above.length + k) = ⟨above.length + k, i + 1, k + 1⟩ := by
  have front : (above ++ line.take k).length = above.length + k := by
    rw [List.length_append, List.length_take_of_le inside]
  have whole : s.content = (above ++ line.take k) ++ (line.drop k ++ below) := by
    rw [here.content, List.append_assoc, ← List.append_assoc (line.take k), List.take_append_drop]
  rw [← front, position_eq_after whole, Position.after_append, here.first_after,
    Position.after_unfed _ (here.unfed_take k), List.length_take_of_le inside]
  simp [Nat.add_comm, front]

/-- What stands above a line stands in an earlier one. -/
theorem lineOf_above (here : s.LineAt i above line below) (before : o < above.length) :
    s.lineOf o ≤ i := by
  rcases List.eq_nil_or_concat above with rfl | ⟨front, last, rfl⟩
  · cases before
  · have begins := here.begins
    have count := here.count
    rw [List.concat_eq_append] at begins count before
    rw [List.count_append, begins last List.getLast?_concat, List.count_singleton_self] at count
    rw [List.length_append, List.length_singleton] at before
    have part : s.content.take o <+: front := by
      rw [here.content, List.concat_eq_append, List.append_assoc,
        List.take_append_of_le_length (by omega)]
      exact List.take_prefix o front
    have fewer := part.sublist.count_le (.char '\n')
    rw [lineOf]
    omega

/-- What stands behind the line feed of a line stands in a later one. -/
theorem lineOf_below (here : s.LineAt i above line below)
    (behind : above.length + line.length < o) (inside : o ≤ s.content.length) :
    i + 1 < s.lineOf o := by
  have length := congrArg List.length here.content
  rw [List.length_append, List.length_append] at length
  obtain ⟨g, rest, rfl⟩ : ∃ g rest, below = g :: rest := by
    apply List.exists_cons_of_length_pos
    omega
  have feed := here.ends g rfl
  have part : above ++ (line ++ [g]) <+: s.content.take o := by
    apply List.prefix_take_iff.2
    rw [here.content, List.length_append, List.length_append, List.length_singleton]
    exact ⟨⟨rest, by simp⟩, by omega⟩
  have many := part.sublist.count_le (.char '\n')
  rw [List.count_append, List.count_append, feed, List.count_singleton_self, here.count] at many
  rw [lineOf]
  omega

end LineAt

theorem exists_lineAt_offset {o : Nat} (inside : o ≤ s.content.length) :
    ∃ i above line below k, s.LineAt i above line below ∧ k ≤ line.length ∧ o = above.length + k := by
  have listed : s.lineOf o - 1 < s.lineCount := by
    rw [lineCount_eq]
    exact Nat.lt_succ_of_le ((List.take_sublist o s.content).count_le _)
  have positive : 0 < s.lineOf o := Nat.succ_pos _
  obtain ⟨above, line, below, here⟩ := exists_lineAt listed
  have low : above.length ≤ o := by
    by_contra before
    have earlier := here.lineOf_above (Nat.lt_of_not_le before)
    omega
  have high : o ≤ above.length + line.length := by
    by_contra behind
    have later := here.lineOf_below (Nat.lt_of_not_le behind) inside
    omega
  exact ⟨_, above, line, below, o - above.length, here, by omega, by omega⟩

/-- The lines that start in front of an offset are the ones up to its own. -/
theorem start_le_iff {i o start : Nat} (listed : s.lineStarts[i]? = some start) :
    start ≤ o ↔ i < s.lineOf o := by
  have low : i < s.lineCount := (List.getElem?_eq_some_iff.1 listed).1
  obtain ⟨above, line, below, here⟩ := exists_lineAt low
  obtain rfl : above.length = start := Option.some.inj (here.start.symm.trans listed)
  constructor
  · intro order
    have first := here.lineOf_eq (Nat.zero_le line.length)
    have least := s.lineOf_mono order
    rw [Nat.add_zero] at first
    omega
  · intro later
    by_contra before
    have earlier := here.lineOf_above (Nat.lt_of_not_le before)
    omega

theorem dropReturns_append (t : Text) :
    ∃ n, t = dropReturns t ++ List.replicate n (.char '\r') := by
  refine ⟨(t.rtakeWhile (· = .char '\r')).length, ?_⟩
  rw [← List.eq_replicate_iff.2 ⟨rfl, fun g member => by simpa using List.mem_rtakeWhile_imp member⟩]
  exact List.rdropWhile_append_rtakeWhile.symm

theorem getLast?_dropReturns (t : Text) : (dropReturns t).getLast? ≠ some (.char '\r') := by
  rw [dropReturns, List.getLast?_reverse]
  intro last
  have stops := List.head?_dropWhile_not (· = Glyph.char '\r') t.reverse
  rw [last] at stops
  simp at stops

/-- What is dropped of a line are the carriage returns with nothing else behind them. -/
theorem dropReturns_getElem? (t : Text) (k : Nat) :
    (∀ g ∈ t.drop k, g = .char '\r') ∧ (dropReturns t)[k]? = none ∨
      (∃ g ∈ t.drop k, g ≠ .char '\r') ∧ (dropReturns t)[k]? = t[k]? := by
  obtain ⟨n, whole⟩ := dropReturns_append t
  by_cases inside : k < (dropReturns t).length
  · have nonempty : dropReturns t ≠ [] := by
      intro empty
      rw [empty] at inside
      cases inside
    have final := List.getLast?_eq_some_getLast nonempty
    generalize (dropReturns t).getLast nonempty = last at final
    have reached : last ∈ (dropReturns t).drop k := by
      apply List.mem_of_getLast?
      rw [List.getLast?_drop, if_neg (Nat.not_le.2 inside), final]
    refine .inr ⟨⟨last, ?_, ?_⟩, ?_⟩
    · rw [whole, List.drop_append]
      exact List.mem_append_left _ reached
    · rintro rfl
      exact getLast?_dropReturns t final
    · conv => rhs; rw [whole]
      rw [List.getElem?_append_left inside]
  · refine .inl ⟨?_, List.getElem?_eq_none (Nat.le_of_not_lt inside)⟩
    intro g member
    rw [whole, List.drop_append, List.drop_eq_nil_of_le (Nat.le_of_not_lt inside), List.nil_append]
      at member
    exact List.eq_of_mem_replicate (List.mem_of_mem_drop member)

theorem LineAt.line?_eq {i : Nat} {above line below : Text} (here : s.LineAt i above line below) :
    s.line? (i + 1) = some (dropReturns line) := by
  rw [line?, Nat.add_sub_cancel, here.listed]
  rfl

/-- Nothing but carriage returns stands between the offset and the end of its line. -/
def EndsAt (s : Source) (o : Nat) : Prop :=
  ∀ g ∈ (s.content.drop o).takeWhile (· ≠ .char '\n'), g = .char '\r'

/-- The place of an offset: by the text in front of it, by the table of lines, and by the glyph that
its line has there. -/
structure Coordinates (s : Source) (o : Nat) (p : Position) : Prop where
  offset : p.offset = o
  line : p.line = (s.content.take o).count (.char '\n') + 1
  column : p.column = ((s.content.take o).reverse.takeWhile (· ≠ .char '\n')).length + 1
  start : ∃ start, s.lineStarts[p.line - 1]? = some start ∧ start + p.column - 1 = o
  search : ∀ i start, s.lineStarts[i]? = some start → (start ≤ o ↔ i < p.line)
  glyph : ¬ s.EndsAt o → (s.line? p.line).bind (·[p.column - 1]?) = s.content[o]?
  ended : s.EndsAt o → (s.line? p.line).bind (·[p.column - 1]?) = none

theorem LineAt.takeWhile_drop {i k : Nat} {above line below : Text} (here : s.LineAt i above line below)
    (inside : k ≤ line.length) :
    (s.content.drop (above.length + k)).takeWhile (· ≠ .char '\n') = line.drop k := by
  have unfed : ∀ g ∈ line.drop k, decide (g ≠ .char '\n') = true := by
    intro g member
    rw [decide_eq_true_eq]
    rintro rfl
    exact here.unfed (List.mem_of_mem_drop member)
  rw [here.drop_eq inside, List.takeWhile_append_of_pos unfed]
  have ends := here.ends
  cases below with
  | nil => simp
  | cons g rest => simp [ends g rfl]

theorem LineAt.takeWhile_take {i k : Nat} {above line below : Text} (here : s.LineAt i above line below)
    (inside : k ≤ line.length) :
    (s.content.take (above.length + k)).reverse.takeWhile (· ≠ .char '\n') =
      (line.take k).reverse := by
  have unfed : ∀ g ∈ (line.take k).reverse, decide (g ≠ .char '\n') = true := by
    intro g member
    rw [decide_eq_true_eq]
    rintro rfl
    exact here.unfed_take k (List.mem_reverse.1 member)
  rw [here.take_eq inside, List.reverse_append, List.takeWhile_append_of_pos unfed]
  have begins := here.begins
  rcases List.eq_nil_or_concat above with rfl | ⟨front, last, rfl⟩
  · simp
  · rw [List.concat_eq_append] at begins ⊢
    simp [begins last List.getLast?_concat]

theorem LineAt.coordinates {i k : Nat} {above line below : Text} (here : s.LineAt i above line below)
    (inside : k ≤ line.length) :
    s.Coordinates (above.length + k) ⟨above.length + k, i + 1, k + 1⟩ where
  offset := rfl
  line := (here.lineOf_eq inside).symm
  column := by rw [here.takeWhile_take inside, List.length_reverse, List.length_take_of_le inside]
  start := ⟨above.length, here.start, rfl⟩
  search j start listed := by
    rw [start_le_iff listed, here.lineOf_eq inside]
  glyph more := by
    rw [here.line?_eq, Option.bind_some, here.content]
    rw [EndsAt, here.takeWhile_drop inside] at more
    rcases dropReturns_getElem? line k with ⟨only, _⟩ | ⟨⟨g, member, _⟩, same⟩
    · exact absurd only more
    · have within : k < line.length := by
        by_contra outside
        rw [List.drop_eq_nil_of_le (Nat.le_of_not_lt outside)] at member
        cases member
      rw [Nat.add_sub_cancel, same, List.getElem?_append_right (Nat.le_add_right _ _),
        Nat.add_sub_cancel_left, List.getElem?_append_left within]
  ended only := by
    rw [here.line?_eq, Option.bind_some]
    rw [EndsAt, here.takeWhile_drop inside] at only
    rcases dropReturns_getElem? line k with ⟨_, absent⟩ | ⟨⟨g, member, other⟩, _⟩
    · exact absent
    · exact absurd (only g member) other

theorem locate_eq {o : Nat} (inside : o ≤ s.content.length) : s.locate o = .ok (s.position o) := by
  rw [locate, if_neg (by omega), Int.toNat_natCast]

theorem position_coordinates {o : Nat} (inside : o ≤ s.content.length) :
    s.Coordinates o (s.position o) := by
  obtain ⟨i, above, line, below, k, here, within, rfl⟩ := exists_lineAt_offset inside
  rw [here.position_eq within]
  exact here.coordinates within

theorem inside_of_locate {o : Nat} {p : Position} (found : s.locate o = .ok p) :
    o ≤ s.content.length ∧ s.position o = p := by
  rw [locate] at found
  split at found
  · cases found
  · rename_i inside
    rw [Int.toNat_natCast] at found
    exact ⟨by omega, Except.ok.inj found⟩

theorem Coordinates.lt_of_lt {o o' : Nat} {p p' : Position} (first : s.Coordinates o p)
    (second : s.Coordinates o' p') (order : o < o') :
    p.line < p'.line ∨ p.line = p'.line ∧ p.column < p'.column := by
  have lines : p.line ≤ p'.line := by
    rw [first.line, second.line]
    exact s.lineOf_mono (Nat.le_of_lt order)
  by_cases same : p.line = p'.line
  · obtain ⟨start, listed, column⟩ := first.start
    obtain ⟨start', listed', column'⟩ := second.start
    rw [same, listed'] at listed
    cases listed
    have positive := first.column
    have positive' := second.column
    exact .inr ⟨same, by omega⟩
  · exact .inl (by omega)

/-- The lines, with the carriage returns at their ends, are the text. -/
theorem exists_returns (s : Source) : ∃ returns : Nat → Nat, s.content =
    Text.ofLines ((List.range' 1 s.lineCount).map fun n =>
      (s.line? n).getD [] ++ List.replicate (returns n) (.char '\r')) := by
  choose returns whole using dropReturns_append
  refine ⟨fun n => returns (s.lines.getD (n - 1) []), ?_⟩
  have each : ((List.range' 1 s.lineCount).map fun n => (s.line? n).getD [] ++
      List.replicate (returns (s.lines.getD (n - 1) [])) (.char '\r')) = s.lines := by
    apply List.ext_getElem
    · rw [List.length_map, List.length_range', lines_length]
    · intro i _ inside
      rw [List.getElem_map, List.getElem_range', Nat.one_mul, Nat.add_comm 1, line?,
        Nat.add_sub_cancel, List.getD_eq_getElem?_getD, List.getElem?_eq_getElem inside]
      exact (whole s.lines[i]).symm
  have same : s.lines = s.content.splitOn (.char '\n') := by
    rw [List.splitOn, lines]
    congr 1
  rw [each, same]
  exact (List.intercalate_splitOn (Glyph.char '\n')).symm

/-- An offset has one place, by the text in front of it as well as by the table, and the places come
in the order of the offsets. The text is its lines, each with the carriage returns that were dropped at
its end. -/
theorem locate_coordinates (s : Source) :
    (∀ o : Nat, o ≤ s.content.length → ∃ p, s.locate o = .ok p ∧ s.Coordinates o p) ∧
      (∀ (o o' : Nat) (p p' : Position), s.locate o = .ok p → s.locate o' = .ok p' →
        (o < o' ↔ p.line < p'.line ∨ p.line = p'.line ∧ p.column < p'.column) ∧
          (p.line = p'.line → p.column = p'.column → o = o')) ∧
      (∀ n, 1 ≤ n → n ≤ s.lineCount → ∃ line, s.line? n = some line ∧ .char '\n' ∉ line ∧
        line.getLast? ≠ some (.char '\r')) ∧
      ∃ returns : Nat → Nat, s.content =
        Text.ofLines ((List.range' 1 s.lineCount).map fun n =>
          (s.line? n).getD [] ++ List.replicate (returns n) (.char '\r')) := by
  refine ⟨?_, ?_, ?_, s.exists_returns⟩
  · intro o inside
    exact ⟨_, locate_eq inside, position_coordinates inside⟩
  · intro o o' p p' found found'
    obtain ⟨inside, rfl⟩ := inside_of_locate found
    obtain ⟨inside', rfl⟩ := inside_of_locate found'
    have first := position_coordinates inside
    have second := position_coordinates inside'
    have before := first.lt_of_lt second
    have behind := second.lt_of_lt first
    rcases Nat.lt_trichotomy o o' with order | rfl | order
    · have after := before order
      omega
    · omega
    · have after := behind order
      omega
  · intro n positive last
    obtain ⟨i, rfl⟩ := Nat.exists_eq_add_of_le' positive
    obtain ⟨above, line, below, here⟩ := exists_lineAt (Nat.lt_of_succ_le last)
    obtain ⟨dropped, whole⟩ := dropReturns_append line
    refine ⟨_, here.line?_eq, fun feed => here.unfed ?_, getLast?_dropReturns line⟩
    rw [whole]
    exact List.mem_append_left _ feed

/-- Two line ends with carriage returns, and one at the end of the text. -/
def returned : Source := ⟨"t.c", "a\r\n\r\nb\r"⟩

theorem locate_coordinates_returned :
    returned.locate 5 = .ok ⟨5, 3, 1⟩ ∧ returned.Coordinates 5 ⟨5, 3, 1⟩ ∧
      returned.locate 3 = .ok ⟨3, 2, 1⟩ ∧ returned.Coordinates 3 ⟨3, 2, 1⟩ ∧
      (3 < 5 ↔ 2 < 3 ∨ 2 = 3 ∧ 1 < 1) ∧ returned.line? 3 = some "b" ∧
      (∃ line, returned.line? 3 = some line ∧ .char '\n' ∉ line ∧
        line.getLast? ≠ some (.char '\r')) := by
  obtain ⟨places, order, lines, _⟩ := locate_coordinates returned
  have first : returned.locate 5 = .ok ⟨5, 3, 1⟩ := by rfl
  have second : returned.locate 3 = .ok ⟨3, 2, 1⟩ := by rfl
  obtain ⟨p, found, coordinates⟩ := places 5 (by decide)
  obtain ⟨q, found', coordinates'⟩ := places 3 (by decide)
  cases Except.ok.inj (found.symm.trans first)
  cases Except.ok.inj (found'.symm.trans second)
  exact ⟨first, coordinates, second, coordinates', (order 3 5 _ _ second first).1, by rfl,
    lines 3 (by decide) (by decide)⟩

end Source

end FormatLint
