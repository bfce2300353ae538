import FormatLint.Proofs.Analysis.Relocation
import FormatLint.Proofs.Token.Open

/-!
Every place in the analysis is the one that the table of lines gives for its offset. A relocation that
gives an offset the place of the table leaves the tokens of a file where they are, so it leaves the
labels where they are: `Analysis.labels_exact`.
-/

namespace FormatLint

namespace Source

/-- The offsets behind the line feeds of a text that begins at the offset `start`. -/
def startsBehind (start : Nat) (t : Text) : List Nat :=
  (t.zipIdx start).filterMap fun (g, index) => if g = .char '\n' then some (index + 1) else none

theorem startsBehind_cons (start : Nat) (g : Glyph) (rest : Text) :
    startsBehind start (g :: rest) =
      if g = .char '\n' then (start + 1) :: startsBehind (start + 1) rest
      else startsBehind (start + 1) rest := by
  rw [startsBehind, List.zipIdx_cons, List.filterMap_cons]
  by_cases feed : g = .char '\n'
  · simp only [feed, ↓reduceIte]
    rfl
  · simp only [feed, ↓reduceIte]
    rfl

theorem splitOnP_length (start : Nat) (t : Text) :
    (t.splitOnP (· = .char '\n')).length = (startsBehind start t).length + 1 := by
  induction t generalizing start with
  | nil => rfl
  | cons g rest ih =>
      rw [List.splitOnP_cons_eq_if_modifyHead, startsBehind_cons]
      by_cases feed : g = .char '\n'
      · simp only [feed, decide_true, ↓reduceIte, List.length_cons]
        rw [ih (start + 1)]
      · simp only [feed, decide_false, Bool.false_eq_true, ↓reduceIte, List.length_modifyHead]
        rw [ih (start + 1)]

theorem lines_length (s : Source) : s.lines.length = s.lineCount := splitOnP_length 0 s.content

theorem startsBehind_append (start : Nat) (front back : Text) :
    startsBehind start (front ++ back) =
      startsBehind start front ++ startsBehind (start + front.length) back := by
  rw [startsBehind, List.zipIdx_append, List.filterMap_append]
  rfl

theorem startsBehind_bounds {start : Nat} {t : Text} :
    ∀ offset ∈ startsBehind start t, start < offset ∧ offset ≤ start + t.length := by
  intro offset member
  obtain ⟨⟨g, index⟩, listed, found⟩ := List.mem_filterMap.1 member
  obtain ⟨low, high, _⟩ := List.mem_zipIdx listed
  dsimp only at found
  split at found
  · cases found
    omega
  · cases found

theorem takeWhile_lineStarts {s : Source} {front back : Text} (whole : s.content = front ++ back) :
    s.lineStarts.takeWhile (· ≤ front.length) = 0 :: startsBehind 0 front := by
  have starts : s.lineStarts = (0 :: startsBehind 0 front) ++ startsBehind front.length back := by
    rw [lineStarts, whole, List.cons_append]
    refine congrArg (0 :: ·) ?_
    have parts := startsBehind_append 0 front back
    rwa [Nat.zero_add] at parts
  have inside : ∀ offset ∈ 0 :: startsBehind 0 front, decide (offset ≤ front.length) = true := by
    intro offset member
    rcases List.mem_cons.1 member with rfl | member
    · simp
    · have bounds := startsBehind_bounds offset member
      simpa using bounds.2
  rw [starts, List.takeWhile_append_of_pos inside]
  cases behind : startsBehind front.length back with
  | nil => rw [List.takeWhile_nil, List.append_nil]
  | cons next later =>
      have bounds := startsBehind_bounds next (by rw [behind]; exact List.mem_cons_self)
      rw [List.takeWhile_cons_of_neg (by simpa using bounds.1), List.append_nil]

/-- Behind the beginning of a text, the place that was counted glyph by glyph is the one of the
table. -/
theorem position_eq_after {s : Source} {front back : Text} (whole : s.content = front ++ back) :
    s.position front.length = Position.first.after front := by
  rw [position, takeWhile_lineStarts whole]
  clear whole
  induction front using List.reverseRecOn with
  | nil => rfl
  | append_singleton front g ih =>
      rw [Position.after_append, Position.after_cons, Position.after_nil, ← ih, startsBehind_append,
        Nat.zero_add, List.length_append, List.length_singleton]
      by_cases feed : g = .char '\n'
      · have one : startsBehind front.length [g] = [front.length + 1] := by simp [startsBehind, feed]
        rw [one, Position.step, if_pos feed, ← List.cons_append, List.getLastD_concat]
        simp
      · have noStart : startsBehind front.length [g] = [] := by simp [startsBehind, feed]
        have last : (0 :: startsBehind 0 front).getLastD 0 ≤ front.length := by
          rw [List.getLastD_eq_getLast?, List.getLast?_eq_some_getLast (List.cons_ne_nil _ _),
            Option.getD_some]
          rcases List.mem_cons.1 (List.getLast_mem (List.cons_ne_nil 0 (startsBehind 0 front))) with
            zero | member
          · omega
          · have bounds := startsBehind_bounds _ member
            omega
        rw [noStart, List.append_nil, Position.step, if_neg feed]
        dsimp only
        congr 1
        omega

/-- Gives every offset the place of the table, and every span the name of the file. -/
def exact (s : Source) : Relocation where
  file _ := s.name
  place p := s.position (min p.offset s.content.length)

theorem exact_after {s : Source} {front : Text} (begins : front <+: s.content) :
    s.exact.place (Position.first.after front) = Position.first.after front := by
  obtain ⟨back, whole⟩ := begins
  have offset : (Position.first.after front).offset = front.length := by
    rw [Position.after_offset]
    exact Nat.zero_add _
  have within : min front.length s.content.length = front.length := by
    rw [← whole, List.length_append]
    omega
  change s.position (min (Position.first.after front).offset s.content.length) = _
  rw [offset, within, position_eq_after whole.symm]

/-- A place that the table of lines leaves alone is one of the text. -/
theorem locate_of_exact {s : Source} {p : Position} (still : s.exact.place p = p) :
    p.offset ≤ s.content.length ∧ s.locate p.offset = .ok p := by
  have inside : p.offset ≤ s.content.length := by
    have offset : min p.offset s.content.length = p.offset := congrArg Position.offset still
    omega
  have place : s.position p.offset = p := by
    rw [← Nat.min_eq_left inside]
    exact still
  refine ⟨inside, ?_⟩
  rw [locate, if_neg (by omega), Int.toNat_natCast, place]

end Source

namespace Token

theorem mem_place {file : Text} {p : Position} {lexemes : List Lexeme} {t : Token}
    (member : t ∈ place file p lexemes) : ∃ front back,
      Lexeme.flatten lexemes = front ++ (t.lexeme ++ back) ∧
        t.span = ⟨file, p.after front, (p.after front).after t.lexeme⟩ := by
  induction lexemes generalizing p with
  | nil => cases member
  | cons l later ih =>
      rw [Lexeme.flatten_cons]
      rcases List.mem_cons.1 member with rfl | member
      · exact ⟨l.blanks, Lexeme.flatten later, List.append_assoc _ _ _, rfl⟩
      · obtain ⟨front, back, whole, span⟩ := ih member
        refine ⟨l.blanks ++ l.text ++ front, back, ?_, ?_⟩
        · rw [whole]
          simp only [List.append_assoc]
        · rw [span]
          simp only [Position.after_append]

theorem place_inside {file : Text} {p : Position} {lexemes : List Lexeme} {t : Token}
    (member : t ∈ place file p lexemes) :
    p.offset ≤ t.span.start.offset ∧ t.span.start.offset ≤ t.span.stop.offset ∧
      t.span.stop.offset ≤ p.offset + (Lexeme.flatten lexemes).length := by
  obtain ⟨front, back, whole, span⟩ := mem_place member
  have start := p.after_offset front
  have stop := (p.after front).after_offset t.lexeme
  rw [whole, List.length_append, List.length_append, span]
  dsimp only
  omega

variable {source : Source} {tokens : List Token}

theorem span_of_tokenize (read : tokenize source.name source.content = .ok tokens) :
    ∀ t ∈ tokens, ∃ front, front ++ t.lexeme <+: source.content ∧
      t.span = ⟨source.name, Position.first.after front, Position.first.after (front ++ t.lexeme)⟩ := by
  unfold tokenize at read
  split at read
  · rename_i lexemes cut
    cases read
    intro t member
    obtain ⟨front, back, whole, span⟩ := mem_place member
    rw [Lexeme.flatten_ofText cut] at whole
    exact ⟨front, ⟨back, by rw [whole, List.append_assoc]⟩, by rw [span, Position.after_append]⟩
  · cases read

theorem exact_of_tokenize (read : tokenize source.name source.content = .ok tokens) :
    ∀ t ∈ tokens, t.relocate source.exact = t ∧ t.Steady source.exact := by
  intro t member
  obtain ⟨front, begins, span⟩ := span_of_tokenize read t member
  have start : front <+: source.content := (List.prefix_append front t.lexeme).trans begins
  constructor
  · have same : t.span.relocate source.exact = t.span := by
      rw [span, Span.relocate, Source.exact_after start, Source.exact_after begins]
      rfl
    rw [relocate, same]
  · intro inner inside
    have reaches : front ++ inner <+: source.content :=
      ((List.prefix_append_right_inj front).2 inside).trans begins
    rw [span]
    dsimp only
    rw [← Position.after_append, Source.exact_after reaches, Source.exact_after start,
      Position.after_append]

end Token

theorem map_eq_self_iff {α : Type} {f : α → α} {l : List α} : l = l.map f ↔ ∀ a ∈ l, f a = a := by
  conv => lhs; lhs; rw [← List.map_id l]
  rw [List.map_inj_left]
  exact ⟨fun same a member => (same a member).symm, fun same a member => (same a member).symm⟩

theorem Token.code_exact {source : Source} {tokens : List Token}
    (read : tokenize source.name source.content = .ok tokens) :
    code tokens = (code tokens).map (relocate source.exact) :=
  map_eq_self_iff.2 fun t inside => (exact_of_tokenize read t (List.mem_of_mem_filter inside)).1

theorem Lexeme.ofText_unclosed {text : Text} {unclosed : Unclosed}
    (found : ofText text = .error unclosed) : unclosed.before ++ unclosed.body <+: text := by
  fun_induction ofText text generalizing unclosed with
  | case1 => cases found
  | case2 text blanks form body =>
      rename_i read
      cases found
      have whole := List.takeWhile_append_dropWhile (p := isGap) (l := text)
      conv => rhs; rw [← whole]
      exact (List.prefix_append_right_inj _).2 (Head.read_iff_open.1 read).body_begins
  | case3 => cases found
  | case4 text blanks kind word rest =>
      rename_i read fault later ih
      cases found
      have whole := List.takeWhile_append_dropWhile (p := isGap) (l := text)
      rw [(Head.read_lexeme read).1] at whole
      rw [← whole, List.append_assoc, List.append_assoc]
      exact (List.prefix_append_right_inj _).2 ((List.prefix_append_right_inj _).2 (ih later))

namespace Analysis

theorem diagnostic_sources {source : Source} {table : PrinterTable} {d : Diagnostic}
    (member : d ∈ (source.analyze table).diagnostics) :
    (∃ fault, Token.tokenize source.name source.content = .error fault ∧ d = .unclosed fault) ∨
      ∃ tokens, Token.tokenize source.name source.content = .ok tokens ∧
        (d ∈ Mention.diagnostics (Mention.ofTokens table tokens) ∨
          ∃ c ∈ Mention.calls (Mention.ofTokens table tokens), d ∈ (c.check source).diagnostics) := by
  unfold Source.analyze at member
  split at member
  · rename_i fault failed
    exact .inl ⟨fault, failed, List.mem_singleton.1 member⟩
  · rename_i tokens read
    refine .inr ⟨tokens, read, ?_⟩
    rcases List.mem_append.1 (mem_sortByPair.1 member) with malformed | checked
    · exact .inl malformed
    · obtain ⟨v, listed, inside⟩ := List.mem_flatMap.1 checked
      obtain ⟨c, found, rfl⟩ := List.mem_map.1 listed
      exact .inr ⟨c, found, inside⟩

theorem argument_tokens {table : PrinterTable} {tokens : List Token} {c : Call}
    (found : c ∈ Mention.calls (Mention.ofTokens table tokens)) :
    ∀ a ∈ c.arguments, a.tokens ⊆ tokens := by
  rw [Mention.calls_eq] at found
  obtain ⟨s, member, call⟩ := List.mem_filterMap.1 found
  have mention := Mention.call?_eq_some_iff.1 call
  obtain ⟨slots, after, lists, arguments, _⟩ := Site.lists_of_call mention
  have whole := (Site.mem_ofTokens_iff.1 member).1
  intro a listed
  rw [arguments] at listed
  obtain ⟨slot, inside, same⟩ := Slot.mem_arguments listed
  rw [same, ← whole, lists.tokens_eq]
  intro t member
  have written := Slot.subset_written inside (slot.trimmed_sublist.subset member)
  exact List.mem_append_right _
    (List.mem_append_left _ ((s.slots_sublist slots).subset written))

/-- Every label is where the table of lines puts its offsets, in the file that was analysed. -/
theorem labels_exact {source : Source} {table : PrinterTable} {d : Diagnostic}
    (member : d ∈ (source.analyze table).diagnostics) :
    ∀ l ∈ d.labels, l.relocate source.exact = l := by
  rcases diagnostic_sources member with ⟨fault, failed, rfl⟩ | ⟨tokens, read, malformed | checked⟩
  · intro l listed
    rw [List.mem_singleton.1 listed]
    unfold Token.tokenize at failed
    split at failed
    · cases failed
    · rename_i unclosed cut
      cases failed
      have reaches := Lexeme.ofText_unclosed cut
      have start := (List.prefix_append unclosed.before unclosed.body).trans reaches
      rw [Label.relocate, Span.relocate, Source.exact_after start, ← Position.after_append,
        Source.exact_after reaches]
      rfl
  · have still := Token.code_exact read
    have same := Mention.diagnostics_relocated table none still
    rw [Option.map_none] at same
    have here := map_eq_self_iff.1 same d malformed
    exact map_eq_self_iff.1 (congrArg Diagnostic.labels here).symm
  · have still := Token.code_exact read
    obtain ⟨c, found, inside⟩ := checked
    have calls := Mention.calls_relocated table none still
    have like := List.forall₂_same.1 calls c found
    have said := Call.check_relocated like source source fun a listed t code _ =>
      (Token.exact_of_tokenize read t (argument_tokens found a listed (List.mem_of_mem_filter code))).2
    exact map_eq_self_iff.1 (List.forall₂_same.1 said d inside).labels

end Analysis

end FormatLint
