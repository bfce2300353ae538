import FormatLint.Proofs.Corpus.Blocks
import FormatLint.Proofs.Corpus.Formats
import FormatLint.Proofs.Revision.SafeWords

/-!
Sample calls. The words of a call are read as that call with its arguments, `Mention.ofTokens_statement`;
and nothing is wrong with it if its format demands as many arguments as it has, of the families of
their casts. So a sample call is a block with one call: `Corpus.SampleCall.Proper.block`.
-/

namespace FormatLint

/-- The words of a call with the given arguments, as a statement. -/
def Word.statement (name : Text) (args : List (List Word)) : List Word :=
  [(.ident, name), openParen] ++ ([comma].intercalate args ++ [closeParen, semicolon])

theorem Word.unlisted_intercalate {args : List (List Word)} (each : ∀ words ∈ args, Unlisted words) :
    Unlisted ([comma].intercalate args) := by
  induction args with
  | nil => exact fun w member => absurd member List.not_mem_nil
  | cons words later ih =>
      obtain ⟨here, others⟩ := List.forall_mem_cons.1 each
      cases later with
      | nil => simpa [List.intercalate_singleton] using here
      | cons next later =>
          rw [List.intercalate_cons_cons, List.append_assoc, unlisted_append]
          exact ⟨here, List.forall_mem_cons.2 ⟨nofun, ih others⟩⟩

/-- The words of an argument list are cut into its arguments. -/
theorem Slot.exists_written {args : List (List Word)} (nonempty : args ≠ [])
    (each : ∀ words ∈ args, Word.IsArgument words) {tokens : List Token}
    (same : tokens.map Token.word = [Word.comma].intercalate args ++ [Word.closeParen]) :
    ∃ slots, tokens = written slots ∧ Listed 0 slots ∧
      slots.map (fun s => s.tokens.map Token.word) = args := by
  have fills {words : List Word} (listed : words ∈ args) {inner : List Token}
      (read : inner.map Token.word = words) : Fills 0 inner :=
    (each words listed).fills.alike
      (Token.alike_of_words (read.trans (Token.words_beyond 0 words).symm))
  induction args generalizing tokens with
  | nil => exact absurd rfl nonempty
  | cons words later ih =>
      cases later with
      | nil =>
          rw [List.intercalate_singleton] at same
          obtain ⟨inner, last, rfl, read, stop⟩ := List.map_eq_append_iff.1 same
          obtain ⟨closing, rfl, closes⟩ := List.map_eq_singleton_iff.1 stop
          refine ⟨[⟨inner, closing⟩], by simp [written], ?_, by simp [read]⟩
          exact .last (fills List.mem_cons_self read) (congrArg Prod.fst closes)
      | cons next later =>
          rw [List.intercalate_cons_cons, List.append_assoc, List.append_assoc] at same
          obtain ⟨inner, rest, rfl, read, behind⟩ := List.map_eq_append_iff.1 same
          obtain ⟨separator, others, rfl, comma, list⟩ := List.map_eq_cons_iff.1 behind
          obtain ⟨slots, rfl, listed, spelled⟩ := ih (by simp)
            (fun words member => each words (List.mem_cons_of_mem _ member)) list
            fun member _ read => fills (List.mem_cons_of_mem _ member) read
          refine ⟨⟨inner, separator⟩ :: slots, by simp [written], ?_, by simp [read, spelled]⟩
          exact .next (fills List.mem_cons_self read) (congrArg Prod.fst comma) listed

theorem Slot.arguments_words {slots : List Slot} {args : List (List Word)}
    (each : ∀ words ∈ args, Word.IsArgument words)
    (spelled : slots.map (fun s => s.tokens.map Token.word) = args) :
    Proper slots ∧ (arguments slots).map (fun a => a.code.map Token.word) = args := by
  have code : ∀ s ∈ slots, Token.code s.tokens = s.tokens ∧ s.tokens ≠ [] := by
    intro s member
    have isArgument := each _ (spelled ▸ List.mem_map_of_mem member)
    exact ⟨isArgument.code_eq rfl, fun empty => isArgument.filled (by rw [empty]; rfl)⟩
  have filled : ∀ s ∈ slots, ¬ s.IsBlank := by
    intro s member blank
    obtain ⟨bare, nonempty⟩ := code s member
    exact nonempty (bare.symm.trans (Token.code_comments blank))
  have proper : Proper slots := fun s member blank => absurd blank (filled s member)
  have notBare : areBare slots = false := by
    rw [Bool.eq_false_iff, ne_eq, areBare_iff]
    rintro ⟨only, rfl, blank⟩
    exact filled only List.mem_cons_self blank
  refine ⟨proper, ?_⟩
  have tokens := arguments_tokens proper notBare
  calc (arguments slots).map (fun a => a.code.map Token.word)
      = ((arguments slots).map (·.tokens)).map fun t => (Token.code t).map Token.word := by
        rw [List.map_map]
        rfl
    _ = slots.map fun s => s.tokens.map Token.word := by
        rw [tokens, List.map_map]
        refine List.map_congr_left fun s member => ?_
        rw [Function.comp_apply, trimmed, Token.code_trimComments, (code s member).1]
    _ = args := spelled

/-- A statement of these words mentions one call, of the printer that is named, with the arguments in
the list. -/
theorem Mention.ofTokens_statement {name : Text} {printer : Printer}
    (named : PrinterTable.standard.find? name = some printer) {args : List (List Word)}
    (nonempty : args ≠ []) (each : ∀ words ∈ args, Word.IsArgument words) {tokens : List Token}
    (same : tokens.map Token.word = Word.statement name args ++ [(.eof, [])]) :
    ∃ c, ofTokens .standard tokens = [.call c] ∧ c.printer = printer ∧
      c.arguments.map (fun a => a.code.map Token.word) = args := by
  have whole : tokens.map Token.word = (.ident, name) :: Word.openParen ::
      (([Word.comma].intercalate args ++ [Word.closeParen]) ++ [Word.semicolon, (.eof, [])]) := by
    rw [same]
    simp [Word.statement]
  obtain ⟨first, others, rfl, word, rest⟩ := List.map_eq_cons_iff.1 whole
  have quiet : scan .standard (some first) others = [] := by
    refine scan_words ?_ _
    rw [rest]
    refine List.forall_mem_cons.2 ⟨nofun, Word.unlisted_append.2 ⟨Word.unlisted_append.2 ⟨?_, ?_⟩, ?_⟩⟩
    · exact Word.unlisted_intercalate fun words member => (each words member).unlisted
    · decide
    · decide
  obtain ⟨opening, _, rfl, paren, rest⟩ := List.map_eq_cons_iff.1 rest
  obtain ⟨list, after, rfl, inside, _⟩ := List.map_eq_append_iff.1 rest
  obtain ⟨slots, rfl, listed, spelled⟩ := Slot.exists_written nonempty each inside
  obtain ⟨proper, arguments⟩ := Slot.arguments_words each spelled
  obtain ⟨ident, rfl⟩ := Prod.mk.inj word
  have opens : opening.kind = .openParen := congrArg Prod.fst paren
  have plain : opening.isComment = false := by simp [Token.isComment, opens]
  refine ⟨⟨printer, first, opening, Slot.closing opening slots, Slot.arguments slots⟩, ?_, rfl,
    arguments⟩
  have read : readCall printer first opening (Slot.written slots ++ after) = .call _ :=
    readCall_eq_call_iff.2 ⟨slots, after, rfl, listed, proper, rfl⟩
  have own : first.isComment = false := by simp [Token.isComment, ident]
  rw [ofTokens, scan, own, if_neg Bool.false_ne_true, quiet, if_pos ident, named]
  dsimp only
  rw [classify, List.dropWhile_cons_of_neg (by simp [plain])]
  dsimp only
  rw [if_neg (by simp [opens]), Option.any_none, if_neg Bool.false_ne_true, read]

/-- Nothing is wrong with a call whose format demands as many arguments as it has, of the families
of their casts. -/
theorem Call.check_quiet {c : Call} (source : Source) {a : Argument} {f : FormatString}
    (found : c.format? = some a) (literal : FormatString.ofArgument? a = some f)
    (valid : f.diagnostics = [])
    (met : List.Forall₂ (fun a d => ∀ cast ∈ a.cast?, cast.family = d.family?) c.trailingArguments
      f.demands) : (c.check source).diagnostics = [] := by
  have pairs : (pair f.demands c.trailingArguments).filterMap Pair.diagnostic? = [] := by
    refine List.filterMap_eq_nil_iff.2 fun p paired => ?_
    obtain ⟨⟨a, d⟩, zipped, rfl⟩ := List.mem_map.1 paired
    have agrees := (List.forall₂_iff_zip.1 met).2 zipped
    unfold Pair.diagnostic?
    dsimp only
    cases cast : a.cast? with
    | none => split <;> simp_all
    | some given =>
        have family := agrees given cast
        split
        · split <;> simp_all
        · rfl
  have counted : c.countDiagnostics f f.demands c.trailingArguments = [] := by
    unfold countDiagnostics
    rw [← met.length_eq, List.drop_length, met.length_eq, List.drop_length]
    rfl
  rw [check_of_format _ found literal]
  split
  · simp [valid, pairs, counted]
  · exact valid

theorem Begins.gaps {blanks : Text} (blank : ∀ g ∈ blanks, Lexeme.isGap g = true) :
    Begins blanks [] := fun _ _ _ scan => .gaps blank scan

theorem Begins.openParen : Begins [.char '('] [Word.openParen] := alone (by decide)

theorem scan_identifier {name : Text} (spelled : Head.IsIdentifier name) {g : Glyph}
    (ends : Head.isWordPart g = false) (noQuote : Quote.ofMark? g = none) (rest : Text) :
    Scan name [(.ident, name)] (g :: rest) := by
  obtain ⟨start, parts⟩ := spelled
  cases name with
  | nil => cases start
  | cons first later =>
      have noGap : Lexeme.isGap first = false := by
        refine Bool.eq_false_iff.2 fun gap => ?_
        have part := parts first List.mem_cons_self
        rw [(Head.boundary_classes (Lexeme.isBoundary_of_isGap gap)).1] at part
        cases part
      refine .single (by rintro _ ⟨⟩; exact noGap) ?_
      refine .ident (by simpa using start) (fun p member => parts p (List.mem_cons_of_mem _ member))
        (by rintro _ ⟨⟩; exact ends) ?_
      rintro quote ⟨⟩
      rw [Quote.ofMark?_eq_some.2 rfl] at noQuote
      cases noQuote

namespace Corpus

theorem separators_begin : ∀ s ∈ separators, Begins s [Word.comma] ∧
    ∃ g later, s = g :: later ∧ Head.isBoundary g = true := by
  have blank : ∀ s ∈ separators, ∃ front back, s = front ++ ([.char ','] ++ back) ∧
      (∀ g ∈ front, Lexeme.isGap g = true) ∧ ∀ g ∈ back, Lexeme.isGap g = true := by
    have parts : ∀ s ∈ separators, s = s.takeWhile Lexeme.isGap ++
        ([.char ','] ++ (s.dropWhile Lexeme.isGap).tail) ∧
        (∀ g ∈ s.takeWhile Lexeme.isGap, Lexeme.isGap g = true) ∧
        ∀ g ∈ (s.dropWhile Lexeme.isGap).tail, Lexeme.isGap g = true := by
      decide
    exact fun s listed => ⟨_, _, parts s listed⟩
  have bounds : ∀ s ∈ separators, s.head?.any Head.isBoundary = true := by decide
  intro s listed
  obtain ⟨front, back, whole, before, behind⟩ := blank s listed
  refine ⟨?_, ?_⟩
  · rw [whole]
    exact (Begins.gaps before).append (Begins.comma.append (.gaps behind))
  · have begins := bounds s listed
    cases s with
    | nil => cases begins
    | cons g later => exact ⟨g, later, rfl, by simpa using begins⟩

theorem scan_joinWith {separator : Text} (listed : separator ∈ separators) {parts : List Text}
    {words : List (List Word)} (reads : List.Forall₂ ReadsArgument parts words) {g : Glyph}
    (bounds : Head.isBoundary g = true) (rest : Text) :
    Scan (Text.joinWith separator parts) ([Word.comma].intercalate words) (g :: rest) := by
  obtain ⟨begins, first, more, same, apart⟩ := separators_begin separator listed
  induction reads with
  | nil => exact .nil
  | @cons part front later others here behind ih =>
      cases behind with
      | nil => simpa [Text.joinWith, List.intercalate_singleton] using here.scan rest bounds
      | cons _ _ =>
          rw [List.intercalate_cons_cons, Text.joinWith, List.intercalate_cons_cons, List.append_assoc,
            List.append_assoc]
          refine Scan.append ?_ (begins ih)
          rw [same]
          exact here.scan _ apart

theorem targets_printers : ∀ t ∈ targets, Head.IsIdentifier t.name ∧
    ∃ printer, PrinterTable.standard.find? t.name = some printer ∧ printer.variadic = true ∧
      printer.formatIndex = t.fixed.length := by
  have spelled : ∀ t ∈ targets, t.name.head?.any Head.isWordStart = true ∧
      ∀ g ∈ t.name, Head.isWordPart g = true := by
    decide
  have known : ∀ t ∈ targets, (PrinterTable.standard.find? t.name).any
      (fun p => p.variadic && p.formatIndex = t.fixed.length) = true := by
    decide
  intro t listed
  obtain ⟨start, parts⟩ := spelled t listed
  have fits := known t listed
  cases found : PrinterTable.standard.find? t.name with
  | none => simp [found] at fits
  | some printer => exact ⟨⟨start, parts⟩, printer, rfl, by simpa [found] using fits⟩

namespace SampleCall

def argumentWords (c : SampleCall) : List (List Word) :=
  c.target.fixed.map CType.words ++
    ([(.string, .char '"' :: (c.formatText ++ [.char '"']))] :: c.items.map Item.words)

variable {c : SampleCall}

theorem Proper.reads_arguments (proper : c.Proper) :
    List.Forall₂ ReadsArgument c.arguments c.argumentWords := by
  rw [arguments, argumentWords, List.append_assoc, List.singleton_append]
  refine List.rel_append ?_ (.cons (.literal proper.enclosed) ?_)
  · rw [List.forall₂_map_right_iff]
    exact List.forall₂_same.2 fun e member =>
      .of_words (targets_arguments _ proper.target e member)
  · rw [List.forall₂_map_left_iff, List.forall₂_map_right_iff]
    exact List.forall₂_same.2 fun i member => (proper.items i member).reads

theorem Proper.isArgument (proper : c.Proper) :
    ∀ words ∈ c.argumentWords, Word.IsArgument words := by
  intro words member
  obtain ⟨part, _, reads⟩ := forall₂_exists proper.reads_arguments member
  exact reads.isArgument

/-- A sample call is read as the statement that it is meant to be. -/
theorem Proper.reads (proper : c.Proper) :
    Reads (Text.ofString "    " ++ c.text) (Word.statement c.target.name c.argumentWords) := by
  refine .of_scan (.gaps (by decide) ?_)
  have close : Scan (Text.ofString ");") [Word.closeParen, Word.semicolon] [] :=
    Begins.closeParen (.single (by decide) (Head.read_iff_form.1 rfl))
  have list : Scan (Text.joinWith c.separator c.arguments) ([Word.comma].intercalate c.argumentWords)
      (Text.ofString ");" ++ []) := scan_joinWith proper.separator proper.reads_arguments (by decide) _
  have name : Scan c.target.name [(.ident, c.target.name)] (Text.ofString "(" ++
      (Text.joinWith c.separator c.arguments ++ Text.ofString ");") ++ []) :=
    scan_identifier (targets_printers _ proper.target).1 (by decide) (by decide) _
  have whole := name.append (Begins.openParen (list.append close))
  simpa only [text, Word.statement, List.append_assoc, List.cons_append, List.nil_append] using whole

theorem literal_body {a : Argument} {body : Text}
    (same : a.code.map Token.word = [(.string, .char '"' :: (body ++ [.char '"']))]) :
    a.code.flatMap Token.body = body ∧ a.isStringLiteral = true := by
  obtain ⟨t, code, word⟩ := List.map_eq_singleton_iff.1 same
  have spelled : t.lexeme = [] ++ .char '"' :: (body ++ [.char '"']) := congrArg Prod.snd word
  have kind : t.kind = .string := congrArg Prod.fst word
  rw [Argument.isStringLiteral, code]
  exact ⟨by simp [Token.body_eq (by simp) spelled], by simp [kind]⟩

theorem Proper.check_quiet (proper : c.Proper) {found : Call} (source : Source)
    (index : found.printer.formatIndex = c.target.fixed.length)
    (same : found.arguments.map (fun a => a.code.map Token.word) = c.argumentWords) :
    (found.check source).diagnostics = [] := by
  obtain ⟨fixed, others, parts, front, behind⟩ := List.map_eq_append_iff.1 same
  obtain ⟨a, trailing, rfl, literal, rest⟩ := List.map_eq_cons_iff.1 behind
  have count : fixed.length = c.target.fixed.length := by
    rw [← List.length_map (fun a : Argument => a.code.map Token.word), front, List.length_map]
  have format : found.format? = some a := by
    rw [Call.format?, index, parts, ← count]
    simp
  have arguments : found.trailingArguments = trailing := by
    rw [Call.trailingArguments, index, parts, ← count]
    simp
  obtain ⟨body, isLiteral⟩ := literal_body literal
  obtain ⟨f, read⟩ : ∃ f, FormatString.ofArgument? a = some f :=
    ⟨_, by rw [FormatString.ofArgument?, if_pos isLiteral]⟩
  obtain ⟨valid, demanded⟩ := proper.demands_fit (f := f) (by
    rw [FormatString.directives_map read, body])
  refine Call.check_quiet source format read valid ?_
  have words : List.Forall₂ (fun a i => a.code.map Token.word = Item.words i) trailing c.items := by
    have equal : List.Forall₂ (fun x y : List Word => x = y)
        (trailing.map fun a => a.code.map Token.word) (c.items.map Item.words) := by
      rw [rest]
      exact List.forall₂_refl _
    rwa [List.forall₂_map_left_iff, List.forall₂_map_right_iff] at equal
  have items : List.Forall₂ (fun a i => i.Proper ∧ a.code.map Token.word = i.words) trailing
      c.items :=
    List.forall₂_iff_zip.2 ⟨words.length_eq, fun zipped =>
      ⟨proper.items _ (List.of_mem_zip zipped).2, (List.forall₂_iff_zip.1 words).2 zipped⟩⟩
  rw [arguments]
  refine forall₂_trans (fun a i d here family => ?_) items demanded
  rw [family]
  exact here.1.cast_family here.2

/-- A sample call is a block with one call. -/
theorem Proper.block (proper : c.Proper) : Block (Text.ofString "    " ++ c.text) 1 := by
  obtain ⟨_, printer, named, _, index⟩ := targets_printers _ proper.target
  have filled : c.argumentWords ≠ [] := by simp [argumentWords]
  refine ⟨⟨_, proper.reads, ?_⟩, fun file => ?_⟩
  · rw [Word.statement, ← List.append_assoc]
    exact Word.Finished.behind (by decide) (by decide)
  · obtain ⟨tokens, read, same⟩ := proper.reads file
    obtain ⟨found, mentioned, rfl, arguments⟩ :=
      Mention.ofTokens_statement named filled proper.isArgument same
    have orderly := Source.orderly_of_mentions (s := ⟨file, Text.ofString "    " ++ c.text⟩) read
      (by rw [mentioned]; rfl)
    rw [mentioned] at orderly
    refine orderly fun d member => ?_
    obtain rfl : d = found := by simpa [Mention.calls, Mention.call?] using member
    refine ⟨proper.check_quiet _ index arguments, fun a inside => ?_⟩
    have listed := arguments ▸ List.mem_map_of_mem (f := fun a : Argument => a.code.map Token.word) inside
    exact (proper.isArgument _ listed).nested.alike
      (Token.alike_of_words (Token.words_beyond 0 _).symm)

end SampleCall

end Corpus

end FormatLint
