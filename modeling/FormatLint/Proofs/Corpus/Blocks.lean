import FormatLint.Proofs.Analysis.Below
import FormatLint.Proofs.Corpus.Arguments
import FormatLint.Proofs.Revision.Clean

/-!
Blocks of a program that can be judged one by one. A block whose last statement is finished may stand
above another one: nothing is wrong with both if nothing is wrong with each, and the numbers of their
calls add up. That is `Source.Orderly.above`.
-/

namespace FormatLint

namespace Text

theorem ofLines_singleton (line : Text) : ofLines [line] = line :=
  @List.intercalate_singleton _ [.char '\n'] line

theorem ofLines_cons (line next : Text) (later : List Text) :
    ofLines (line :: next :: later) = line.above (ofLines (next :: later)) := by
  rw [ofLines, joinWith, List.intercalate_cons_cons, List.append_assoc]
  rfl

theorem ofLines_append {front back : List Text} (first : front ≠ []) (second : back ≠ []) :
    ofLines (front ++ back) = (ofLines front).above (ofLines back) := by
  obtain ⟨below, lines, rfl⟩ := List.exists_cons_of_ne_nil second
  induction front with
  | nil => exact absurd rfl first
  | cons line later ih =>
      cases later with
      | nil => rw [ofLines_singleton, List.singleton_append, ofLines_cons]
      | cons next later =>
          have behind := ih (by simp)
          rw [List.cons_append] at behind
          rw [List.cons_append, List.cons_append, ofLines_cons, behind, ofLines_cons]
          simp [above]

theorem ofLines_nested (front lines : List Text) (filled : lines ≠ []) (back : List Text) :
    ofLines (front ++ ofLines lines :: back) = ofLines (front ++ (lines ++ back)) := by
  have behind : ofLines (ofLines lines :: back) = ofLines (lines ++ back) := by
    cases back with
    | nil => rw [ofLines_singleton, List.append_nil]
    | cons next later =>
        rw [ofLines_append filled (by simp), ← List.singleton_append,
          ofLines_append (by simp) (by simp), ofLines_singleton]
  cases front with
  | nil => exact behind
  | cons line later =>
      rw [ofLines_append (by simp) (by simp), ofLines_append (by simp) (by simp [filled]), behind]

end Text

/-- The text by itself is read as the words, in whatever file. -/
def Reads (t : Text) (words : List Word) : Prop :=
  ∀ file, ∃ tokens, Token.tokenize file t = .ok tokens ∧
    tokens.map Token.word = words ++ [(.eof, [])]

def Word.semicolon : Word := (.punct, ";")

/-- The words do not end with a comment that goes on on the next line. -/
def Word.EndsLine (words : List Word) : Prop :=
  ∀ last ∈ words.getLast?, last.1 = .comment → ¬ Head.continues last.2

/-- The last word that is no comment ends a statement, and the last word ends with its line. -/
structure Word.Finished (words : List Word) : Prop where
  statement : ∀ last ∈ (words.filter (·.1 ≠ .comment)).getLast?, last = semicolon
  line : EndsLine words

/-- None of the words is the name of a printer. -/
def Word.Unlisted (words : List Word) : Prop :=
  ∀ w ∈ words, w.1 = .ident → PrinterTable.standard.find? w.2 = none

instance (word : Text) : Decidable (Head.continues word) := by
  unfold Head.continues
  infer_instance

instance (words : List Word) : Decidable (Word.EndsLine words) := by
  unfold Word.EndsLine
  infer_instance

instance (words : List Word) : Decidable (Word.Finished words) :=
  decidable_of_iff
    ((∀ last ∈ (words.filter (·.1 ≠ .comment)).getLast?, last = Word.semicolon) ∧ Word.EndsLine words)
    ⟨fun ⟨statement, line⟩ => ⟨statement, line⟩, fun ⟨statement, line⟩ => ⟨statement, line⟩⟩

instance (words : List Word) : Decidable (Word.Unlisted words) := by
  unfold Word.Unlisted
  infer_instance

theorem Word.unlisted_append {front back : List Word} :
    Unlisted (front ++ back) ↔ Unlisted front ∧ Unlisted back := List.forall_mem_append

theorem Mention.scan_words {tokens : List Token} (unlisted : Word.Unlisted (tokens.map Token.word))
    (previous : Option Token) : scan .standard previous tokens = [] := by
  have named : ∀ t ∈ tokens, t.kind = .ident → PrinterTable.standard.find? t.lexeme = none :=
    fun t member => unlisted t.word (List.mem_map_of_mem member)
  have scanned := scan_unlisted named previous []
  rwa [List.append_nil] at scanned

theorem Word.EndsLine.behind {front back : List Word} (ends : EndsLine back) (filled : back ≠ []) :
    EndsLine (front ++ back) := by
  rw [EndsLine, List.getLast?_append_of_ne_nil _ filled]
  exact ends

/-- Only the words behind count for what is finished, if there is a word of code among them. -/
theorem Word.Finished.behind {front back : List Word} (finished : Finished back)
    (code : back.filter (·.1 ≠ .comment) ≠ []) : Finished (front ++ back) where
  statement := by
    rw [List.filter_append, List.getLast?_append_of_ne_nil _ code]
    exact finished.statement
  line := finished.line.behind fun empty => code (by rw [empty]; rfl)

theorem Word.finished_comment {spelling : Text} (ends : ¬ Head.continues spelling) :
    Finished [(.comment, spelling)] where
  statement := by simp
  line := by
    rintro last ⟨⟩ _
    exact ends

section Tokens

variable {words : List Word} {tokens : List Token}

theorem Token.dropLast_words (same : tokens.map Token.word = words ++ [(.eof, [])]) :
    tokens.dropLast.map Token.word = words := by
  rw [List.map_dropLast, same, List.dropLast_concat]

theorem Word.EndsLine.comment (ends : Word.EndsLine words)
    (same : tokens.map Token.word = words ++ [(.eof, [])]) :
    ∀ last ∈ tokens.dropLast.getLast?, last.kind = .comment → ¬ Head.continues last.lexeme := by
  intro last found
  refine ends last.word ?_
  rw [← Token.dropLast_words same, List.getLast?_map, found]
  rfl

theorem Word.Finished.of_words (finished : Word.Finished words)
    (same : tokens.map Token.word = words ++ [(.eof, [])]) : Token.Finished tokens := by
  refine ⟨fun last found => ?_, finished.line.comment same⟩
  have word : last.word = Word.semicolon := by
    refine finished.statement _ ?_
    have filtered : words.filter (·.1 ≠ .comment) =
        (Token.code tokens.dropLast).map Token.word := by
      rw [← Token.dropLast_words same, List.filter_map, Token.code]
      refine congrArg _ (List.filter_congr fun t _ => ?_)
      rw [Function.comp_apply, Token.isComment, decide_not]
      rfl
    rw [filtered, List.getLast?_map, found]
    rfl
  rw [Token.isPunct, show last.kind = .punct from congrArg Prod.fst word,
    show last.lexeme = Text.ofString ";" from congrArg Prod.snd word]
  rfl

end Tokens

namespace Reads

variable {t t' : Text} {words words' : List Word}

theorem of_scan (scan : Scan t words []) : Reads t words := by
  intro file
  have read := scan.tokenize file (by simp)
  rwa [List.append_nil] at read

theorem above (first : Reads t words) (ends : Word.EndsLine words) (second : Reads t' words') :
    Reads (t.above t') (words ++ words') := by
  intro file
  obtain ⟨tokens, read, same⟩ := first file
  obtain ⟨others, read', same'⟩ := second file
  refine ⟨_, Token.tokenize_above read read' (ends.comment same), ?_⟩
  rw [List.map_append, Token.dropLast_words same, List.map_map, List.append_assoc, ← same']
  rfl

end Reads

/-- Nothing is wrong with the text, its arguments are properly nested, and so many calls are found. -/
structure Source.Orderly (s : Source) (count : Nat) : Prop where
  clean : (s.analyze .standard).Clean
  count : (s.analyze .standard).verdicts.length = count
  nested : ∀ v ∈ (s.analyze .standard).verdicts, ∀ a ∈ v.call.arguments, Token.Nested a.code

namespace Source

variable {s : Source} {tokens : List Token}

theorem orderly_of_mentions (read : Token.tokenize s.name s.content = .ok tokens)
    (quiet : Mention.diagnostics (Mention.ofTokens .standard tokens) = [])
    (checked : ∀ c ∈ Mention.calls (Mention.ofTokens .standard tokens),
      (c.check s).diagnostics = [] ∧ ∀ a ∈ c.arguments, Token.Nested a.code) :
    s.Orderly (Mention.calls (Mention.ofTokens .standard tokens)).length := by
  have verdicts : (s.analyze .standard).verdicts =
      (Mention.calls (Mention.ofTokens .standard tokens)).map (·.check s) := by
    rw [Analysis.analyze_eq s read]
  refine ⟨(Analysis.clean_iff read).2 ⟨quiet, fun c found => (checked c found).1⟩, ?_, ?_⟩
  · rw [verdicts, List.length_map]
  · rw [verdicts, List.forall_mem_map]
    intro c found
    rw [Call.check_call]
    exact (checked c found).2

theorem orderly_of_unlisted {t : Text} {words : List Word} (reads : Reads t words)
    (unlisted : Word.Unlisted words) (file : Text) : Orderly ⟨file, t⟩ 0 := by
  obtain ⟨tokens, read, same⟩ := reads file
  have unmentioned : Mention.ofTokens .standard tokens = [] :=
    Mention.scan_words (by rw [same]; exact Word.unlisted_append.2 ⟨unlisted, by decide⟩) none
  have orderly := orderly_of_mentions (s := ⟨file, t⟩) read (by rw [unmentioned]; rfl)
    (by rw [unmentioned]; exact fun c found => absurd found List.not_mem_nil)
  rwa [unmentioned] at orderly

theorem nested_relocate (r : Relocation) {v : Verdict}
    (nested : ∀ a ∈ v.call.arguments, Token.Nested a.code) :
    ∀ a ∈ (v.relocate r).call.arguments, Token.Nested a.code := by
  intro a member
  obtain ⟨a', inside, rfl⟩ := List.mem_map.1 member
  refine (nested a' inside).alike ?_
  rw [Argument.relocate_code, List.forall₂_map_right_iff]
  exact List.forall₂_same.2 fun t _ => ⟨rfl, rfl⟩

theorem Orderly.above {below : Text} {m n : Nat} (first : s.Orderly m)
    (read : Token.tokenize s.name s.content = .ok tokens) (finished : Token.Finished tokens)
    (second : Orderly ⟨s.name, below⟩ n) : (s.above below).Orderly (m + n) := by
  obtain ⟨others, read'⟩ := second.clean.exists_tokens
  have cut : Token.tokenize (s.above below).name (s.above below).content = _ :=
    Token.tokenize_above read read' finished.comment
  have verdicts : ((s.above below).analyze .standard).verdicts =
      (s.analyze .standard).verdicts ++ (Source.analyze ⟨s.name, below⟩ .standard).verdicts.map
        (Verdict.relocate (.below s.content)) := by
    rw [Analysis.analyze_eq _ cut, Analysis.analyze_eq s read,
      Analysis.analyze_eq ⟨s.name, below⟩ read']
    exact Analysis.verdicts_above read finished
  refine ⟨⟨?_, ?_⟩, ?_, ?_⟩
  · rw [Analysis.analyze_eq _ cut]
    rfl
  · rw [Analysis.diagnostics_above read read' finished, first.clean.quiet, second.clean.quiet]
    rfl
  · rw [verdicts, List.length_append, List.length_map, first.count, second.count]
  · rw [verdicts]
    refine List.forall_mem_append.2 ⟨first.nested, List.forall_mem_map.2 fun v found => ?_⟩
    exact nested_relocate _ (second.nested v found)

end Source

/-- The text is a block of statements that are finished at its end: it can be read, and nothing is
wrong with it, in whatever file. -/
structure Block (t : Text) (count : Nat) : Prop where
  reads : ∃ words, Reads t words ∧ Word.Finished words
  orderly : ∀ file, Source.Orderly ⟨file, t⟩ count

namespace Block

variable {t below : Text} {m n : Nat}

theorem of_unlisted {words : List Word} (reads : Reads t words) (finished : Word.Finished words)
    (unlisted : Word.Unlisted words) : Block t 0 :=
  ⟨⟨words, reads, finished⟩, Source.orderly_of_unlisted reads unlisted⟩

theorem above (block : Block t m) {file : Text} (later : Source.Orderly ⟨file, below⟩ n) :
    Source.Orderly ⟨file, t.above below⟩ (m + n) := by
  obtain ⟨words, reads, finished⟩ := block.reads
  obtain ⟨tokens, read, same⟩ := reads file
  exact (block.orderly file).above read (finished.of_words same) later

end Block

end FormatLint
