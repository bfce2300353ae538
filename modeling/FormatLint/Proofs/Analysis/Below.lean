import FormatLint.Proofs.Analysis.LineEnds
import FormatLint.Proofs.Analysis.Stages
import FormatLint.Proofs.Call.Statements
import FormatLint.Proofs.Revision.Below

/-!
Statements are analysed and revised one by one. If the last token of a text that is no comment ends a
statement, then `Analysis.analyze_above` says that the analysis of the text with another one on the
lines below is that of both, the second one further down, and that each revision is that of both.
-/

namespace FormatLint

variable {table : PrinterTable}

namespace Diagnostic

/-- The diagnostic marks a place. -/
def IsPlaced (d : Diagnostic) : Prop := ∃ p, d.primarySpan? = some p

end Diagnostic

theorem Call.check_placed (c : Call) (source : Source) :
    ∀ d ∈ (c.check source).diagnostics, d.IsPlaced := by
  intro d member
  cases reported_of_check member with
  | missing | nonLiteral | invalid | mismatch | unmet | extra => exact ⟨_, rfl⟩

theorem Mention.diagnostics_placed {previous : Option Token} {tokens : List Token} :
    ∀ d ∈ diagnostics (scan table previous tokens), d.IsPlaced := by
  intro d member
  obtain ⟨printer, name, opening, rest, read⟩ := mem_diagnostics member
  rcases readCall_malformed_inversion read with ⟨_, rfl⟩ | ⟨_, rfl⟩
  · exact ⟨_, rfl⟩
  · exact ⟨_, rfl⟩

/-- The source with another text on the lines below it. -/
def Source.above (s : Source) (below : Text) : Source := { s with content := s.content.above below }

namespace Source

variable {s : Source} {below : Text}

theorem slice_above {start stop : Nat} (inside : stop ≤ s.content.length) :
    (s.above below).slice start stop = s.slice start stop := by
  rw [slice, slice, above, Text.above]
  dsimp only
  rw [List.take_append_of_le_length inside]

theorem slice_below (start stop : Nat) :
    (s.above below).slice (start + (s.content.length + 1)) (stop + (s.content.length + 1)) =
      Source.slice ⟨s.name, below⟩ start stop := by
  have whole : (s.above below).content = (s.content ++ [Glyph.char '\n']) ++ below := by
    simp [above, Text.above]
  have length : s.content.length + 1 = (s.content ++ [Glyph.char '\n']).length := by simp
  rw [slice, slice, whole, length, Nat.add_comm start, Nat.add_comm stop,
    List.take_length_add_append, List.drop_length_add_append]

end Source

theorem Call.check_congr {c : Call} {source source' : Source}
    (written : ∀ a ∈ c.arguments, c.start source' a = c.start source a) :
    c.check source' = c.check source := by
  unfold check
  cases format : c.format? with
  | none => rfl
  | some a =>
      have same := written a (List.mem_of_getElem? format)
      dsimp only
      rw [same]

/-- A call below a text is checked as on its own. -/
theorem Call.check_below (c : Call) (s : Source) (below : Text) :
    (c.relocate (.below s.content)).check (s.above below) =
      (c.check ⟨s.name, below⟩).relocate (.below s.content) := by
  have shifts := Relocation.below_shifts s.content
  refine c.check_relocate (fun _ _ t _ _ => t.steady_below s.content) fun a _ => ?_
  have name : (c.relocate (.below s.content)).name.span.start.offset =
      c.name.span.start.offset + (s.content.length + 1) := shifts _
  rw [start, start, name, (a.offsets_relocate shifts).1, s.slice_below]

/-- The tokens of a text that can be analysed apart from the lines below it: the last one that is no
comment ends a statement, and the last one is not a line comment that goes on below. -/
structure Token.Finished (tokens : List Token) : Prop where
  statement : ∀ last ∈ (code tokens.dropLast).getLast?, last.isPunct [";"] = true
  comment : ∀ last ∈ tokens.dropLast.getLast?, last.kind = .comment → ¬ Head.continues last.lexeme

theorem Mention.scan_below {tokens : List Token} (finished : Token.Finished tokens) (text : Text)
    (others : List Token) :
    scan table none (tokens.dropLast ++ others.map (Token.relocate (.below text))) =
      scan table none tokens.dropLast ++ (scan table none others).map (relocate (.below text)) := by
  have ends : Slot.EndsStatement tokens.dropLast := by
    intro last member
    rw [Slot.endsStatement, finished.statement last member, Bool.or_true]
  have free : (previousOf none tokens.dropLast).any declares =
      (none.map (Token.relocate (.below text))).any declares := by
    rw [previousOf, Option.or_none]
    cases code : (Token.code tokens.dropLast).getLast? with
    | none => rfl
    | some last =>
        have semicolon := finished.statement last code
        simp only [Token.isPunct, Bool.and_eq_true, decide_eq_true_eq, List.mem_singleton]
          at semicolon
        have other : Text.ofString ";" ∉ [Text.ofString ".", "->"] := by decide
        simp [declares, Token.isPunct, semicolon.1, semicolon.2, other]
  rw [scan_append_statement none ends, scan_previous free, scan_relocate]

namespace Mention

theorem calls_relocate (r : Relocation) (mentions : List Mention) :
    calls (mentions.map (relocate r)) = (calls mentions).map (Call.relocate r) := by
  rw [calls, calls, List.filterMap_map, List.map_filterMap]
  refine List.filterMap_congr fun m _ => ?_
  cases m <;> rfl

theorem diagnostics_relocate (r : Relocation) (mentions : List Mention) :
    diagnostics (mentions.map (relocate r)) =
      (diagnostics mentions).map (Diagnostic.relocate r) := by
  rw [diagnostics, diagnostics, List.filterMap_map, List.map_filterMap]
  refine List.filterMap_congr fun m _ => ?_
  cases m <;> rfl

end Mention

namespace Diagnostic

theorem sortKey_below {d : Diagnostic} (placed : d.IsPlaced) (text : Text) :
    (d.relocate (.below text)).sortKey =
      (d.sortKey.1 + (text.length + 1), d.sortKey.2 + (text.length + 1)) ∧ 0 ≤ d.sortKey.1 := by
  obtain ⟨p, found⟩ := placed
  have moved : (d.relocate (.below text)).primarySpan? = some (p.relocate (.below text)) := by
    have like : d.Relocated (.below text) (d.relocate (.below text)) := ⟨rfl, rfl, rfl⟩
    rw [like.primarySpan?, found]
    rfl
  rw [sortKey, sortKey, found, moved]
  refine ⟨?_, Int.natCast_nonneg _⟩
  simp only [Span.relocate, Relocation.below, Prod.mk.injEq]
  omega

/-- The diagnostic stands in the text, or at the end of it. -/
def isWithin (text : Text) (d : Diagnostic) : Bool := d.sortKey.1 ≤ text.length

theorem isWithin_below {text : Text} {ds : List Diagnostic} (placed : ∀ d ∈ ds, d.IsPlaced) :
    ∀ d ∈ ds.map (relocate (.below text)), d.isWithin text = false := by
  intro d member
  obtain ⟨d, listed, rfl⟩ := List.mem_map.1 member
  obtain ⟨key, positive⟩ := sortKey_below (placed d listed) text
  rw [isWithin, key, decide_eq_false_iff_not]
  dsimp only
  omega

theorem filter_isWithin {text : Text} {ds : List Diagnostic} (inside : ∀ d ∈ ds, d.isWithin text = true) :
    ds.filter (isWithin text) = ds ∧ ds.filter (fun d => !isWithin text d) = [] :=
  ⟨List.filter_eq_self.2 inside,
    List.filter_eq_nil_iff.2 fun d member => by simp [inside d member]⟩

theorem filter_isWithin_below {text : Text} {ds : List Diagnostic} (placed : ∀ d ∈ ds, d.IsPlaced) :
    (ds.map (relocate (.below text))).filter (isWithin text) = [] ∧
      (ds.map (relocate (.below text))).filter (fun d => !isWithin text d) =
        ds.map (relocate (.below text)) :=
  ⟨List.filter_eq_nil_iff.2 fun d member => by simp [isWithin_below placed d member],
    List.filter_eq_self.2 fun d member => by simp [isWithin_below placed d member]⟩

theorem sort_below {text : Text} {front front' back back' : List Diagnostic}
    (inside : ∀ d ∈ front ++ front', d.isWithin text = true)
    (placed : ∀ d ∈ back ++ back', d.IsPlaced) :
    sort (front ++ back.map (relocate (.below text)) ++
        (front' ++ back'.map (relocate (.below text)))) =
      sort (front ++ front') ++ (sort (back ++ back')).map (relocate (.below text)) := by
  obtain ⟨inFront, inFront'⟩ := List.forall_mem_append.1 inside
  obtain ⟨inBack, inBack'⟩ := List.forall_mem_append.1 placed
  have moved : sort ((back ++ back').map (relocate (.below text))) =
      (sort (back ++ back')).map (relocate (.below text)) := by
    refine sortByPair_map _ fun d first e second => ?_
    rw [(sortKey_below (placed d first) text).1, (sortKey_below (placed e second) text).1,
      Bool.eq_iff_iff, pairLE_iff, pairLE_iff]
    dsimp only
    omega
  rw [sort, sortByPair_split (isWithin text)]
  · rw [List.filter_append, List.filter_append, List.filter_append, List.filter_append,
      List.filter_append, List.filter_append, (filter_isWithin inFront).1, (filter_isWithin inFront).2,
      (filter_isWithin inFront').1, (filter_isWithin inFront').2, (filter_isWithin_below inBack).1,
      (filter_isWithin_below inBack).2, (filter_isWithin_below inBack').1,
      (filter_isWithin_below inBack').2, List.append_nil, List.append_nil, List.nil_append,
      List.nil_append, ← List.map_append]
    exact congrArg (sort (front ++ front') ++ ·) moved
  · intro d _ e _ first second
    rw [isWithin, decide_eq_true_eq] at first
    rw [isWithin, decide_eq_false_iff_not] at second
    refine ⟨pairLE_iff.2 (.inl (by omega)), fun same => second ?_⟩
    rw [← same]
    exact first

end Diagnostic

namespace Analysis

/-- What is remarked on in a file stands inside it. -/
theorem sortKey_inside {source : Source} {d : Diagnostic}
    (member : d ∈ (source.analyze table).diagnostics) : d.sortKey.1 ≤ source.content.length := by
  rw [Diagnostic.sortKey]
  cases found : d.primarySpan? with
  | none =>
      dsimp only
      omega
  | some p =>
      have exact : d.Exact source := labels_exact member
      have start := congrArg Position.offset (exact.primarySpan? found).1
      simp only [Source.exact, Source.position] at start
      dsimp only
      omega

/-- The analysis of a text with another one on the lines below it is that of both, the second one
further down, and each revision is that of both. -/
structure Above (first second whole : Analysis) : Prop where
  fault : whole.fault = none
  tokens : whole.tokens = first.tokens.dropLast ++
    second.tokens.map (Token.relocate (.below first.source.content))
  mentions : whole.mentions = first.mentions ++
    second.mentions.map (Mention.relocate (.below first.source.content))
  verdicts : whole.verdicts = first.verdicts ++
    second.verdicts.map (Verdict.relocate (.below first.source.content))
  diagnostics : whole.diagnostics = first.diagnostics ++
    second.diagnostics.map (Diagnostic.relocate (.below first.source.content))
  typecast : ∃ made made', first.typecast = .ok made ∧ second.typecast = .ok made' ∧
    whole.typecast = .ok (made.above made')
  optimize : ∃ made made', first.optimize = .ok made ∧ second.optimize = .ok made' ∧
    whole.optimize = .ok (made.above made')

variable {source : Source} {below : Text} {tokens others : List Token}

theorem mentions_above (read : Token.tokenize source.name source.content = .ok tokens)
    (finished : Token.Finished tokens) : Mention.ofTokens table
        (tokens.dropLast ++ others.map (Token.relocate (.below source.content))) =
      Mention.ofTokens table tokens ++
        (Mention.ofTokens table others).map (Mention.relocate (.below source.content)) := by
  obtain ⟨_, lexical, eof, rfl, ends, _⟩ := Token.laid_of_tokenize read
  have whole := @Mention.scan_eof table _ ends none lexical
  rw [Mention.ofTokens, Mention.ofTokens, Mention.ofTokens, Mention.scan_below finished, whole,
    List.dropLast_concat]

theorem check_above (read : Token.tokenize source.name source.content = .ok tokens) {c : Call}
    (found : c ∈ Mention.calls (Mention.ofTokens table tokens)) :
    c.check (source.above below) = c.check source := by
  refine Call.check_congr fun a member => ?_
  have first := argument_tokens found a member (List.head_mem a.nonempty)
  have inside : a.span.start.offset ≤ source.content.length :=
    (Token.inside_of_tokenize read _ first).1
  rw [Call.start, Call.start, source.slice_above inside]

theorem verdicts_above (read : Token.tokenize source.name source.content = .ok tokens)
    (finished : Token.Finished tokens) :
    (Mention.calls (Mention.ofTokens table (tokens.dropLast ++
        others.map (Token.relocate (.below source.content))))).map (·.check (source.above below)) =
      (Mention.calls (Mention.ofTokens table tokens)).map (·.check source) ++
        ((Mention.calls (Mention.ofTokens table others)).map
          (·.check ⟨source.name, below⟩)).map (Verdict.relocate (.below source.content)) := by
  rw [mentions_above read finished, Mention.calls, List.filterMap_append, ← Mention.calls,
    ← Mention.calls, Mention.calls_relocate, List.map_append, List.map_map, List.map_map]
  refine congrArg₂ (· ++ ·) (List.map_congr_left fun c found => check_above read found)
    (List.map_congr_left fun c _ => c.check_below source below)

theorem exists_typecast (source : Source) (table : PrinterTable) :
    ∃ revised, (source.analyze table).typecast = .ok revised := by
  obtain ⟨starts, insertions⟩ := castEdits_starts source table
  refine Edit.exists_applyAll _ (fun e member => Nat.le_of_eq (insertions e member))
    (starts.imp_of_mem fun {d e} front back differ => ?_)
  have first := insertions d front
  have second := insertions e back
  simp only [Edit.Apart]
  omega

theorem exists_optimize (source : Source) (table : PrinterTable) :
    ∃ revised, (source.analyze table).optimize = .ok revised := by
  obtain ⟨apart, forward⟩ := safeEdits_apart source table
  exact Edit.exists_applyAll _ (fun e member => Nat.le_of_lt (forward e member)) apart

theorem flatMap_relocate {α : Type} {r : Relocation} {make : Verdict → List α} {move : α → α}
    (moves : ∀ v : Verdict, make (v.relocate r) = (make v).map move) (front back : List Verdict) :
    (front ++ back.map (Verdict.relocate r)).flatMap make =
      front.flatMap make ++ (back.flatMap make).map move := by
  rw [List.flatMap_append, List.flatMap_map, List.map_flatMap]
  exact congrArg (front.flatMap make ++ ·) (List.flatMap_congr fun v _ => moves v)

theorem diagnostics_above (read : Token.tokenize source.name source.content = .ok tokens)
    (read' : Token.tokenize source.name below = .ok others) (finished : Token.Finished tokens) :
    ((source.above below).analyze table).diagnostics = (source.analyze table).diagnostics ++
      (Source.analyze ⟨source.name, below⟩ table).diagnostics.map
        (Diagnostic.relocate (.below source.content)) := by
  have cut : Token.tokenize (source.above below).name (source.above below).content = _ :=
    Token.tokenize_above read read' finished.comment
  have inside : ∀ d ∈ (source.analyze table).diagnostics, d.isWithin source.content = true :=
    fun d member => decide_eq_true (sortKey_inside member)
  have placed : ∀ d ∈ Mention.diagnostics (Mention.ofTokens table others) ++
      ((Mention.calls (Mention.ofTokens table others)).map
        (·.check ⟨source.name, below⟩)).flatMap (·.diagnostics), d.IsPlaced := by
    refine List.forall_mem_append.2 ⟨Mention.diagnostics_placed, fun d member => ?_⟩
    obtain ⟨v, checked, reported⟩ := List.mem_flatMap.1 member
    obtain ⟨c, _, rfl⟩ := List.mem_map.1 checked
    exact c.check_placed _ d reported
  rw [analyze_eq source read] at inside
  rw [analyze_eq source read, analyze_eq ⟨source.name, below⟩ read', analyze_eq _ cut]
  dsimp only
  rw [verdicts_above read finished, mentions_above read finished, Mention.diagnostics,
    List.filterMap_append, ← Mention.diagnostics, ← Mention.diagnostics,
    Mention.diagnostics_relocate, flatMap_relocate fun _ => rfl]
  exact Diagnostic.sort_below
    (fun d member => inside d ((sortByPair_perm Diagnostic.sortKey _).mem_iff.2 member)) placed

/-- A text whose statements are finished, with another one on the lines below it. -/
theorem analyze_above (read : Token.tokenize source.name source.content = .ok tokens)
    (read' : Token.tokenize source.name below = .ok others) (finished : Token.Finished tokens) :
    Above (source.analyze table) (Source.analyze ⟨source.name, below⟩ table)
      ((source.above below).analyze table) := by
  have cut : Token.tokenize (source.above below).name (source.above below).content = _ :=
    Token.tokenize_above read read' finished.comment
  have verdicts : ((source.above below).analyze table).verdicts = (source.analyze table).verdicts ++
      (Source.analyze ⟨source.name, below⟩ table).verdicts.map
        (Verdict.relocate (.below source.content)) := by
    rw [analyze_eq source read, analyze_eq ⟨source.name, below⟩ read', analyze_eq _ cut]
    exact verdicts_above read finished
  have shifts := Relocation.below_shifts source.content
  refine ⟨?_, ?_, ?_, ?_, ?_, ?_, ?_⟩
  · rw [analyze_eq _ cut]
  · rw [analyze_eq source read, analyze_eq ⟨source.name, below⟩ read', analyze_eq _ cut]
  · rw [analyze_eq source read, analyze_eq ⟨source.name, below⟩ read', analyze_eq _ cut]
    exact mentions_above read finished
  · rw [analyze_source]
    exact verdicts
  · rw [analyze_source]
    exact diagnostics_above read read' finished
  · obtain ⟨made, revised⟩ := exists_typecast source table
    obtain ⟨made', revised'⟩ := exists_typecast ⟨source.name, below⟩ table
    refine ⟨made, made', revised, revised', ?_⟩
    rw [typecast, analyze_source] at revised revised' ⊢
    rw [verdicts, flatMap_relocate fun v => v.castEdits_relocate shifts]
    exact Edit.applyAll_above revised revised' (castEdits_inside read)
  · obtain ⟨made, revised⟩ := exists_optimize source table
    obtain ⟨made', revised'⟩ := exists_optimize ⟨source.name, below⟩ table
    refine ⟨made, made', revised, revised', ?_⟩
    rw [optimize, analyze_source] at revised revised' ⊢
    rw [verdicts, flatMap_relocate fun v => by
      rw [v.safeEdits?_relocate shifts]
      cases v.safeEdits? <;> rfl]
    exact Edit.applyAll_above revised revised' (safeEdits_inside read)

/-- A statement with a comment behind it. -/
def finishedCall : List Lexeme :=
  [⟨[], .ident, "printf"⟩, ⟨[], .openParen, "("⟩, ⟨[], .string, "\"%d\""⟩, ⟨[], .comma, ","⟩,
    ⟨[.char ' '], .ident, "x"⟩, ⟨[], .closeParen, ")"⟩, ⟨[], .punct, ";"⟩, ⟨[.char ' '], .comment, "// c"⟩]

/-- A call that is never closed. -/
def openCall : List Lexeme :=
  [⟨[], .ident, "printf"⟩, ⟨[], .openParen, "("⟩, ⟨[], .ident, "y"⟩, ⟨[], .punct, ";"⟩]

theorem chain_finishedCall : Lexeme.Chain finishedCall [] := by
  repeat' first
    | exact .nil
    | refine .cons (by decide) (by decide) (Head.read_iff_form.1 rfl) ?_

theorem chain_openCall : Lexeme.Chain openCall [] := by
  repeat' first
    | exact .nil
    | refine .cons (by decide) (by decide) (Head.read_iff_form.1 rfl) ?_

/-- The comment of the first statement hides nothing of the second one, which stays malformed. -/
theorem analyze_above_openCall :
    Above (Source.analyze ⟨[], "printf(\"%d\", x); // c"⟩ .standard)
      (Source.analyze ⟨[], "printf(y;"⟩ .standard)
      (Source.analyze ⟨[], "printf(\"%d\", x); // c\nprintf(y;"⟩ .standard) := by
  have read := Lexeme.tokenize_words chain_finishedCall []
  have read' := Lexeme.tokenize_words chain_openCall []
  have finished : Token.Finished (Token.place [] .first (finishedCall ++ [⟨[], .eof, []⟩])) := by
    constructor
    · rintro last ⟨⟩
      rfl
    · rintro last ⟨⟩ _ ⟨_, slash⟩
      exact absurd slash (by decide)
  exact @analyze_above .standard ⟨[], Lexeme.flatten finishedCall⟩ _ _ _ read read' finished

end Analysis

end FormatLint
