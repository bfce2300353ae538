import FormatLint.Proofs.Analysis.Exact
import FormatLint.Proofs.Analysis.Sorting
import FormatLint.Proofs.Token.LineEnds

/-!
Whether the lines of a file end with a line feed or with a carriage return and a line feed.
`Analysis.outline_crlf` says that the analysis finds the same either way, as long as no literal and no
line comment goes on behind the end of a line. If one does, the two differ: the backslash at the end
of the line takes the carriage return along and not the line feed, `Analysis.escapedLineEnd_fatal`.
-/

namespace FormatLint

/-- The file with a carriage return in front of every line feed. -/
def Source.crlf (s : Source) : Source := { s with content := s.content.crlf }

/-- What a diagnostic says, and the lines and columns at which its labels begin. -/
def Diagnostic.outline (d : Diagnostic) : Problem × Text × List (Nat × Nat) :=
  (d.problem, d.message, d.labels.map fun l => (l.span.start.line, l.span.start.column))

theorem Text.Unbroken.tokens {source : Source} {tokens : List Token}
    (unbroken : source.content.Unbroken)
    (read : Token.tokenize source.name source.content = .ok tokens) :
    ∀ t ∈ tokens, .char '\n' ∈ t.lexeme → t.kind = .comment := by
  unfold Token.tokenize at read
  split at read
  · rename_i lexemes cut
    cases read
    obtain ⟨chain, blanks, rfl, whole, chained, _⟩ := Lexeme.ofText_eq_ok_iff.1 cut
    intro t member feed
    have words := Token.place_lexemes source.name .first (chain ++ [⟨blanks, .eof, []⟩])
    have listed := List.mem_map_of_mem (f := fun t : Token => (t.kind, t.lexeme)) member
    rw [words] at listed
    obtain ⟨l, inside, same⟩ := List.mem_map.1 listed
    obtain ⟨kind, text⟩ := Prod.mk.inj same
    rw [← text] at feed
    rw [← kind]
    rcases List.mem_append.1 inside with inside | eof
    · exact (unbroken chain blanks whole chained l inside feed).1
    · rw [List.mem_singleton.1 eof] at feed
      cases feed
  · cases read

theorem Text.unbroken_of_ofText {t : Text} {lexemes : List Lexeme}
    (cut : Lexeme.ofText t = .ok lexemes)
    (each : ∀ l ∈ lexemes, .char '\n' ∈ l.text → l.kind = .comment ∧ Text.ofString "/*" <+: l.text) :
    t.Unbroken := by
  rintro front rest rfl chain l member
  rw [Lexeme.ofText_chain_append chain] at cut
  split at cut
  · cases cut
    exact each l (List.mem_append_left _ member)
  · cases cut

theorem Token.steady_crlf {source : Source} {tokens : List Token}
    (unbroken : source.content.Unbroken)
    (read : Token.tokenize source.name source.content = .ok tokens) :
    ∀ t ∈ tokens, t.kind = .string → t.Steady .crlf := by
  intro t member string front begins
  obtain ⟨before, _, span⟩ := span_of_tokenize read t member
  have plain : .char '\n' ∉ front := by
    intro feed
    have comment := unbroken.tokens read t member (begins.subset feed)
    rw [string] at comment
    cases comment
  have moved := Position.after_crlf (p := t.span.start) (by
    rw [span]
    exact Position.line_le_after .first before) front
  rw [Text.crlf_eq_self plain] at moved
  exact moved.symm

namespace Source

theorem takeWhile_le_length {first second : Nat} (order : first ≤ second) (starts : List Nat) :
    (starts.takeWhile (· ≤ first)).length ≤ (starts.takeWhile (· ≤ second)).length := by
  induction starts with
  | nil => exact Nat.le_refl _
  | cons start later ih =>
      rw [List.takeWhile_cons, List.takeWhile_cons]
      by_cases inside : start ≤ first
      · simp [inside, inside.trans order, ih]
      · simp [inside]

theorem line_mono (s : Source) {first second : Nat} (order : first ≤ second) :
    (s.position first).line ≤ (s.position second).line :=
  takeWhile_le_length order s.lineStarts

/-- Exact places keep their order when they move. -/
theorem crlf_order (s : Source) {p q : Position} (first : s.exact.place p = p)
    (second : s.exact.place q = q) :
    p.offset < q.offset ↔ (Relocation.crlf.place p).offset < (Relocation.crlf.place q).offset := by
  have lines : p.offset ≤ q.offset → p.line ≤ q.line := by
    intro order
    rw [← first, ← second]
    exact s.line_mono (by omega)
  have back : q.offset ≤ p.offset → q.line ≤ p.line := by
    intro order
    rw [← first, ← second]
    exact s.line_mono (by omega)
  change _ ↔ p.offset + (p.line - 1) < q.offset + (q.line - 1)
  omega

end Source

namespace Diagnostic

theorem Relocated.primarySpan? {r : Relocation} {d d' : Diagnostic} (like : d.Relocated r d') :
    d'.primarySpan? = d.primarySpan?.map (Span.relocate r) := by
  have same : (fun l : Label => l.primary) ∘ Label.relocate r = fun l => l.primary := rfl
  unfold Diagnostic.primarySpan?
  rw [like.labels, List.find?_map, same, List.head?_map]
  cases d.labels.find? (·.primary) with
  | some l => rfl
  | none => cases d.labels.head? <;> rfl

theorem primarySpan?_mem {d : Diagnostic} {p : Span} (found : d.primarySpan? = some p) :
    ∃ l ∈ d.labels, l.span = p := by
  unfold primarySpan? at found
  split at found
  · rename_i l first
    exact ⟨l, List.mem_of_find?_eq_some first, Option.some.inj found⟩
  · obtain ⟨l, first, same⟩ := Option.map_eq_some_iff.1 found
    exact ⟨l, List.mem_of_head? first, same⟩

/-- All labels are where the table of lines puts their offsets. -/
def Exact (s : Source) (d : Diagnostic) : Prop := ∀ l ∈ d.labels, l.relocate s.exact = l

theorem Exact.primarySpan? {s : Source} {d : Diagnostic} (exact : d.Exact s) {p : Span}
    (found : d.primarySpan? = some p) :
    s.exact.place p.start = p.start ∧ s.exact.place p.stop = p.stop := by
  obtain ⟨l, member, rfl⟩ := primarySpan?_mem found
  have same := congrArg Label.span (exact l member)
  exact ⟨congrArg Span.start same, congrArg Span.stop same⟩

theorem sortKey_crlf {s : Source} {d d' e e' : Diagnostic} (first : d.Exact s) (second : e.Exact s)
    (like : d.Relocated .crlf d') (like' : e.Relocated .crlf e') :
    pairLE d.sortKey e.sortKey = pairLE d'.sortKey e'.sortKey := by
  unfold sortKey
  rw [like.primarySpan?, like'.primarySpan?]
  cases here : d.primarySpan? with
  | none =>
      cases e.primarySpan? with
      | none => rfl
      | some q =>
          rw [Bool.eq_iff_iff, pairLE_iff, pairLE_iff]
          simp only [Option.map_some, Option.map_none]
          omega
  | some p =>
      cases there : e.primarySpan? with
      | none =>
          rw [Bool.eq_iff_iff, pairLE_iff, pairLE_iff]
          simp only [Option.map_some, Option.map_none]
          omega
      | some q =>
          obtain ⟨start, stop⟩ := first.primarySpan? here
          obtain ⟨start', stop'⟩ := second.primarySpan? there
          have one := s.crlf_order start start'
          have two := s.crlf_order start' start
          have three := s.crlf_order stop stop'
          have four := s.crlf_order stop' stop
          rw [Bool.eq_iff_iff, pairLE_iff, pairLE_iff]
          simp only [Option.map_some, Span.relocate]
          omega

theorem Relocated.outline {d d' : Diagnostic} (like : d.Relocated .crlf d') :
    d'.outline = d.outline := by
  rw [Diagnostic.outline, Diagnostic.outline, like.problem, like.message, like.labels, List.map_map]
  rfl

end Diagnostic

namespace Analysis

variable {source : Source}

/-- What is found in a file that can be cut into tokens, before it is sorted. -/
theorem diagnostics_crlf {table : PrinterTable} {tokens tokens' : List Token}
    (unbroken : source.content.Unbroken)
    (read : Token.tokenize source.name source.content = .ok tokens)
    (like : Token.code tokens' = (Token.code tokens).map (Token.relocate .crlf)) :
    List.Forall₂ (Diagnostic.Relocated .crlf)
      (Mention.diagnostics (Mention.ofTokens table tokens) ++
        ((Mention.calls (Mention.ofTokens table tokens)).map (·.check source)).flatMap
          (·.diagnostics))
      (Mention.diagnostics (Mention.ofTokens table tokens') ++
        ((Mention.calls (Mention.ofTokens table tokens')).map (·.check source.crlf)).flatMap
          (·.diagnostics)) := by
  have malformed := Mention.diagnostics_relocated table none like
  have calls := Mention.calls_relocated table none like
  rw [Option.map_none] at malformed calls
  have steady : ∀ c ∈ Mention.calls (Mention.ofTokens table tokens), ∀ a ∈ c.arguments,
      ∀ t ∈ a.code, t.kind = .string → t.Steady .crlf := by
    intro c found a listed t code
    exact Token.steady_crlf unbroken read t
      (argument_tokens found a listed (List.mem_of_mem_filter code))
  refine List.rel_append ?_ ?_
  · rw [Mention.ofTokens, Mention.ofTokens, malformed]
    exact Diagnostic.relocated_map _
  · rw [List.flatMap_map, List.flatMap_map]
    refine List.rel_flatMap ((List.forall₂_and_left _ _).2 ⟨steady, calls⟩) ?_
    rintro c c' ⟨steady, like⟩
    exact Call.check_relocated like source source.crlf steady

/-- If no literal and no line comment goes on behind the end of a line, it does not matter whether
lines end with a carriage return: the file can be read or not, the same calls are found with as many
arguments, and the same is said about them at the same lines and columns. -/
theorem outline_crlf {table : PrinterTable} (unbroken : source.content.Unbroken) :
    (source.crlf.analyze table).isFatal = (source.analyze table).isFatal ∧
      (source.crlf.analyze table).verdicts.map
          (fun v => (v.call.printer, v.call.arguments.length)) =
        (source.analyze table).verdicts.map (fun v => (v.call.printer, v.call.arguments.length)) ∧
      (source.crlf.analyze table).diagnostics.map Diagnostic.outline =
        (source.analyze table).diagnostics.map Diagnostic.outline := by
  have labels {d : Diagnostic} (member : d ∈ (source.analyze table).diagnostics) : d.Exact source :=
    labels_exact member
  obtain ⟨cuts, faults⟩ := Lexeme.ofText_crlf source.name unbroken (p := .first) (Nat.le_refl 1)
    (Lexeme.resumes_crlf (Nat.le_refl 1) source.content)
  have first : Relocation.crlf.place .first = .first := rfl
  rw [first] at cuts faults
  cases cut : Lexeme.ofText source.content with
  | error fault =>
      obtain ⟨fault', cut', form, place⟩ := faults fault cut
      have failed : Token.tokenize source.name source.content = .error
          ⟨⟨source.name, Position.first.after fault.before,
            (Position.first.after fault.before).after fault.body⟩, fault.form⟩ := by
        rw [Token.tokenize, cut]
      have failed' : Token.tokenize source.crlf.name source.crlf.content = .error
          ⟨⟨source.name, Position.first.after fault'.before,
            (Position.first.after fault'.before).after fault'.body⟩, fault'.form⟩ := by
        rw [Token.tokenize, show Lexeme.ofText source.crlf.content = .error fault' from cut']
        rfl
      rw [Source.analyze, Source.analyze, failed, failed']
      refine ⟨rfl, rfl, ?_⟩
      simp only [List.map_cons, List.map_nil, Diagnostic.outline, Diagnostic.unclosed, form, place]
      rfl
  | ok lexemes =>
      obtain ⟨lexemes', cut', like⟩ := cuts lexemes cut
      have read : Token.tokenize source.name source.content =
          .ok (Token.place source.name .first lexemes) := by
        rw [Token.tokenize, cut]
      have read' : Token.tokenize source.crlf.name source.crlf.content =
          .ok (Token.place source.name .first lexemes') := by
        rw [Token.tokenize, show Lexeme.ofText source.crlf.content = .ok lexemes' from cut']
        rfl
      have said := @diagnostics_crlf _ table _ _ unbroken read like
      have calls := Mention.calls_relocated table none like
      rw [Option.map_none] at calls
      rw [Source.analyze, read] at labels
      rw [Source.analyze, Source.analyze, read, read']
      refine ⟨rfl, ?_, ?_⟩
      · simp only [List.map_map]
        refine map_eq_of_forall₂ ?_ calls
        intro c c' like
        simp only [Function.comp_apply, Call.check_call, like.printer, like.arguments.length_eq]
      -- Only places that the table of lines leaves alone keep their order when they move.
      · have exact := fun d member => labels (d := d) (mem_sortByPair.2 member)
        have pairs := (List.forall₂_and_left _ _).2 ⟨exact, said⟩
        refine map_eq_of_forall₂ (fun d d' like => like.2.outline) (forall₂_sortByPair pairs ?_)
        rintro d d' e e' ⟨first, like⟩ ⟨second, like'⟩
        exact Diagnostic.sortKey_crlf first second like like'

/-- A block comment over two lines inside a call, and a line comment behind it. -/
def commentLines : List Lexeme :=
  [⟨[], .ident, "printf"⟩, ⟨[], .openParen, "("⟩, ⟨[], .string, "\"%d\""⟩, ⟨[], .comma, ","⟩,
    ⟨[.char ' '], .comment, "/* a\n b */"⟩, ⟨[.char ' '], .ident, "x"⟩, ⟨[], .closeParen, ")"⟩,
    ⟨[], .punct, ";"⟩, ⟨[.char ' '], .comment, "// c"⟩, ⟨[.char '\n'], .ident, "printf"⟩,
    ⟨[], .openParen, "("⟩, ⟨[], .ident, "y"⟩, ⟨[], .closeParen, ")"⟩, ⟨[], .punct, ";"⟩]

theorem chain_commentLines : Lexeme.Chain commentLines [] := by
  repeat' first
    | exact .nil
    | refine .cons (by decide) (by decide) (Head.read_iff_form.1 rfl) ?_

/-- Comments may end at the end of a line, and block comments reach over it. -/
theorem outline_crlf_commentLines :
    let source : Source := ⟨[], Lexeme.flatten commentLines⟩
    source.content.Unbroken ∧
      (source.crlf.analyze .standard).isFatal = (source.analyze .standard).isFatal ∧
      (source.crlf.analyze .standard).verdicts.map
          (fun v => (v.call.printer, v.call.arguments.length)) =
        (source.analyze .standard).verdicts.map
          (fun v => (v.call.printer, v.call.arguments.length)) ∧
      (source.crlf.analyze .standard).diagnostics.map Diagnostic.outline =
        (source.analyze .standard).diagnostics.map Diagnostic.outline := by
  have cut := Lexeme.ofText_chain chain_commentLines (Lexeme.ofText_gaps Lexeme.gaps_nil)
  rw [List.append_nil] at cut
  have unbroken := Text.unbroken_of_ofText cut (by decide)
  exact ⟨unbroken, outline_crlf unbroken⟩

/-- A string literal that goes on behind the end of a line. -/
def continuedLiteral : List Lexeme :=
  [⟨[], .ident, "printf"⟩, ⟨[], .openParen, "("⟩, ⟨[], .string, "\"a\\\nb\""⟩,
    ⟨[], .closeParen, ")"⟩, ⟨[], .punct, ";"⟩]

theorem ofText_continuedLiteral :
    Lexeme.ofText (Lexeme.flatten continuedLiteral) = .ok (continuedLiteral ++ [⟨[], .eof, []⟩]) := by
  have chain : Lexeme.Chain continuedLiteral [] := by
    repeat' first
      | exact .nil
      | refine .cons (by decide) (by decide) (Head.read_iff_form.1 rfl) ?_
  exact Lexeme.ofText_words chain

/-- Behind a carriage return the backslash does not take the line feed along. -/
theorem ofText_continuedLiteral_crlf :
    Lexeme.ofText (Lexeme.flatten continuedLiteral).crlf =
      .error ⟨"printf(", .literal .double, "\"a\\\r"⟩ := by
  have chain : Lexeme.Chain (continuedLiteral.take 2) "\"a\\\r\nb\");" := by
    repeat' first
      | exact .nil
      | refine .cons (by decide) (by decide) (Head.read_iff_form.1 rfl) ?_
  have cut := Lexeme.ofText_chain_append chain
  have stuck : Lexeme.ofText "\"a\\\r\nb\");" = .error ⟨[], .literal .double, "\"a\\\r"⟩ :=
    Lexeme.ofText_open rfl
  rw [stuck] at cut
  exact cut

/-- A literal that goes on behind the end of a line is closed if that is a line feed, and with a
carriage return in front of the line feed it is not. -/
theorem escapedLineEnd_fatal :
    ¬ ∀ (source : Source) (table : PrinterTable), .char '\r' ∉ source.content →
      (source.crlf.analyze table).isFatal = (source.analyze table).isFatal := by
  intro all
  have same := all ⟨[], Lexeme.flatten continuedLiteral⟩ .standard (by decide)
  rw [Source.analyze, Source.analyze, Token.tokenize, Token.tokenize, ofText_continuedLiteral,
    show Lexeme.ofText (Source.crlf ⟨[], Lexeme.flatten continuedLiteral⟩).content = _ from
      ofText_continuedLiteral_crlf] at same
  exact Bool.noConfusion same

end Analysis

end FormatLint
