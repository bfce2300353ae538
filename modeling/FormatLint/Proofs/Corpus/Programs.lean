import FormatLint.Proofs.Corpus.Calls
import FormatLint.Proofs.Corpus.Counted

/-!
Drawn programs have nothing wrong with them. `Corpus.drawProgram_faultless` says that the analysis
finds as many calls as were drawn, has no remark on the program or on either revision of it, and has no
more casts to write out when all are.
-/

namespace FormatLint

theorem Scan.of_words {t : Text} (read : (Lexeme.ofText t).isOk = true) :
    Scan t (CType.words t) [] := by
  cases cut : Lexeme.ofText t with
  | error fault =>
      rw [cut] at read
      cases read
  | ok lexemes =>
      obtain ⟨chain, blanks, rfl, rfl, chained, blank⟩ := Lexeme.ofText_eq_ok_iff.1 cut
      have words : CType.words (Lexeme.flatten chain ++ blanks) = chain.map Lexeme.word := by
        simp [CType.words, cut]
      have front : Scan (Lexeme.flatten chain) (chain.map Lexeme.word) (blanks ++ []) := by
        rw [List.append_nil]
        exact .of_chain chained
      have behind : Scan (blanks ++ []) [] [] := .gaps blank .nil
      rw [List.append_nil] at behind
      rw [words, ← List.append_nil (chain.map Lexeme.word)]
      exact front.append behind

namespace Head

theorem lineComment_whole {body : Text} (noFeed : ∀ g ∈ body, g ≠ .char '\n') :
    lineComment body = (body, []) := by
  fun_induction lineComment body <;> simp_all

theorem isWordPart_ne_feed {g : Glyph} (part : isWordPart g = true) : g ≠ .char '\n' := by
  rintro rfl
  revert part
  decide

theorem isWordStart_classes {g : Glyph} (start : isWordStart g = true) :
    continuesOpening g = false ∧ isAsciiDigit g = false := by
  have marks : ∀ mark ∈ openings, ∀ g ∈ mark.tail, isWordStart g = false := by decide
  constructor
  · refine List.any_eq_false.2 fun mark listed inside => ?_
    rw [marks mark listed g (by simpa using inside)] at start
    cases start
  · refine Bool.eq_false_iff.2 fun digit => ?_
    have isNumber : number? [g] ≠ none := fun noNumber =>
      Bool.false_ne_true ((number?_eq_none.1 noNumber).1 ▸ digit)
    obtain ⟨⟨number, tail⟩, counted⟩ := Option.ne_none_iff_exists'.1 isNumber
    rw [(number?_start counted).2.2] at start
    cases start

end Head

theorem Mention.ofTokens_value {front : List Word} (unlisted : Word.Unlisted front) {name : Text}
    {tokens : List Token}
    (same : tokens.map Token.word = front ++ [(.ident, name), Word.semicolon, (.eof, [])]) :
    calls (ofTokens .standard tokens) = [] ∧ diagnostics (ofTokens .standard tokens) = [] := by
  obtain ⟨before, rest, rfl, read, behind⟩ := List.map_eq_append_iff.1 same
  obtain ⟨t, others, rfl, word, behind⟩ := List.map_eq_cons_iff.1 behind
  have quiet : scan .standard (some t) others = [] := by
    refine scan_words ?_ _
    rw [behind]
    decide
  obtain ⟨semicolon, _, rfl, mark, _⟩ := List.map_eq_cons_iff.1 behind
  have ident : t.kind = .ident := congrArg Prod.fst word
  have ends : semicolon.kind = .punct := congrArg Prod.fst mark
  have named : ∀ t ∈ before, t.kind = .ident → PrinterTable.standard.find? t.lexeme = none :=
    fun t member => unlisted t.word (read ▸ List.mem_map_of_mem member)
  rw [ofTokens, scan_unlisted named, scan, show t.isComment = false by simp [Token.isComment, ident],
    if_neg Bool.false_ne_true, quiet, if_pos ident]
  cases PrinterTable.standard.find? t.lexeme with
  | none => exact ⟨rfl, rfl⟩
  | some printer =>
      dsimp only
      rw [classify, List.dropWhile_cons_of_neg (by simp [Token.isComment, ends])]
      dsimp only
      rw [if_pos (by simp [ends])]
      exact ⟨rfl, rfl⟩

theorem PrinterTable.Unlisted.behind {name : Text} (free : PrinterTable.Unlisted name)
    {words : List Word} (unlisted : Word.Unlisted words) :
    Word.Unlisted (words ++ [(.ident, name)]) :=
  Word.unlisted_append.2 ⟨unlisted, by simpa [Word.Unlisted] using free.unlisted⟩

namespace Corpus

/-- A name between a text that is read in front of it and one that it cannot go on with. -/
theorem reads_around {front name back : Text} {words : List Word} (free : PrinterTable.Unlisted name)
    (lead : Scan front words (name ++ back))
    (apart : back.head?.any (fun g => !Head.isWordPart g && (Quote.ofMark? g).isNone) = true)
    (read : (Lexeme.ofText back).isOk = true) :
    Reads (front ++ (name ++ back)) ((words ++ [(.ident, name)]) ++ CType.words back) := by
  cases back with
  | nil => cases apart
  | cons g later =>
      have ends : Head.isWordPart g = false ∧ Quote.ofMark? g = none := by simpa using apart
      have ident : Scan name [(.ident, name)] (g :: later ++ []) := by
        rw [List.append_nil]
        exact scan_identifier free.spelled ends.1 ends.2 later
      rw [List.append_assoc]
      refine .of_scan (Scan.append ?_ (ident.append (.of_words read)))
      rwa [List.append_nil]

theorem block_around {front name back : Text} {words : List Word} (free : PrinterTable.Unlisted name)
    (lead : Scan front words (name ++ back)) (unlisted : Word.Unlisted words)
    (apart : back.head?.any (fun g => !Head.isWordPart g && (Quote.ofMark? g).isNone) = true)
    (read : (Lexeme.ofText back).isOk = true)
    (closed : Word.Finished (CType.words back) ∧
      (CType.words back).filter (·.1 ≠ .comment) ≠ [] ∧ Word.Unlisted (CType.words back)) :
    Block (front ++ (name ++ back)) 0 := by
  obtain ⟨finished, filled, others⟩ := closed
  refine .of_unlisted (reads_around free lead apart read) (finished.behind filled) ?_
  exact Word.unlisted_append.2 ⟨free.behind unlisted, others⟩

/-- The line of a statement in the body of a function. -/
def Statement.line (s : Statement) : Text := Text.ofString "    " ++ s.text

variable {name : Text}

theorem block_lineComment (free : PrinterTable.Unlisted name) :
    Block (Statement.lineComment name).line 0 := by
  have body : ∀ g ∈ Text.ofString " printf(\"%s %d\", " ++ name ++ Text.ofString ");",
      g ≠ .char '\n' := by
    refine List.forall_mem_append.2 ⟨List.forall_mem_append.2 ⟨by decide, ?_⟩, by decide⟩
    exact fun g member => Head.isWordPart_ne_feed (free.spelled.parts g member)
  have form := @Head.Form.lineComment _ [] (by
    rw [List.append_nil]
    exact Head.lineComment_whole body)
  have reads : Reads (Statement.lineComment name).line [(.comment, _)] :=
    .of_scan (.gaps (by decide) (.single (by rintro g ⟨⟩; decide) form))
  refine .of_unlisted reads (Word.finished_comment fun goes => ?_) (by simp [Word.Unlisted])
  have last := goes.2
  rw [Statement.text, List.getLast?_append_of_ne_nil _ (by decide)] at last
  revert last
  decide

theorem block_blockComment (free : PrinterTable.Unlisted name) :
    Block (Statement.blockComment name).line 0 := by
  have comment : Scan (Text.ofString "    /* snprintf(buf, 1, \"%d\"); */ ")
      [(.comment, Text.ofString "/* snprintf(buf, 1, \"%d\"); */")] (name ++ Text.ofString "++;") := by
    have word : Scan (Text.ofString "/* snprintf(buf, 1, \"%d\"); */")
        [(.comment, Text.ofString "/* snprintf(buf, 1, \"%d\"); */")]
          ([.char ' '] ++ (name ++ Text.ofString "++;")) :=
      .single (by decide) (Head.read_iff_form.1 rfl)
    have indent : ∀ g ∈ Text.ofString "    ", Lexeme.isGap g = true := by decide
    exact .gaps indent (word.append (.gap (by decide) .nil))
  have block := block_around free comment (by decide) (by decide) (by decide +kernel)
    (by decide +kernel)
  simpa [Statement.line, Statement.text, Text.ofString] using block

theorem scan_star (free : PrinterTable.Unlisted name) (rest : Text) :
    Scan (Text.ofString "*") [(.punct, "*")] (name ++ rest) := by
  obtain ⟨start, _⟩ := free.spelled
  cases name with
  | nil => cases start
  | cons first later =>
      obtain ⟨foreign, noDigit⟩ := Head.isWordStart_classes (g := first) (by simpa using start)
      have noNumber : Head.number? ([.char '*'] ++ []) = none := by decide
      exact .single (by decide) (Head.symbol_replace (by decide) (by decide) noNumber
        (.inr ⟨by decide, rfl⟩) foreign noDigit)

theorem block_literal (free : PrinterTable.Unlisted name) :
    Block (Statement.literal name).line 0 := by
  have lead (rest : Text) : Scan (Text.ofString "    const char *")
      [(.ident, Text.ofString "const"), (.ident, Text.ofString "char"), (.punct, Text.ofString "*")]
        (name ++ rest) := by
    have star := scan_star free rest
    have char : Scan (Text.ofString "char") [(.ident, Text.ofString "char")]
        (.char ' ' :: (Text.ofString "*" ++ (name ++ rest))) :=
      scan_identifier ⟨by decide, by decide⟩ (by decide) (by decide) _
    have const : Scan (Text.ofString "const") [(.ident, Text.ofString "const")]
        (.char ' ' :: (Text.ofString "char" ++ (.char ' ' :: Text.ofString "*")) ++ (name ++ rest)) :=
      scan_identifier ⟨by decide, by decide⟩ (by decide) (by decide) _
    have indent : ∀ g ∈ Text.ofString "    ", Lexeme.isGap g = true := by decide
    exact .gaps indent (const.append (.gap (by decide) (char.append (.gap (by decide) star))))
  have block : Block (Text.ofString "    const char *" ++
      (name ++ Text.ofString " = \"printf(\\\"%s\\\", x)\";")) 0 :=
    block_around free (lead _) (by decide) (by decide) (by decide +kernel) (by decide +kernel)
  simpa [Statement.line, Statement.text, Text.ofString] using block

theorem Statement.Proper.block {s : Statement} (proper : s.Proper) :
    Block s.line s.calls := by
  cases s with
  | call c => exact SampleCall.Proper.block proper
  | lineComment name => exact block_lineComment proper
  | blockComment name => exact block_blockComment proper
  | literal name => exact block_literal proper

/-- What may stand on the lines in front of a function: nothing in it is the name of a printer. -/
structure Lead (t : Text) : Prop where
  read : (Lexeme.ofText t).isOk = true
  line : Word.EndsLine (CType.words t)
  unlisted : Word.Unlisted (CType.words t)

def opening (lead name : Text) : List Text :=
  [lead, "int " ++ name ++ "(int count, char *name) \x7b", Text.ofString "    char buf[256];"]

theorem block_opening {lead : Text} (front : Lead lead) (free : PrinterTable.Unlisted name) :
    Block (Text.ofLines (opening lead name)) 0 := by
  have int : Scan (Text.ofString "int ") [(.ident, Text.ofString "int")]
      (name ++ Text.ofString "(int count, char *name) \x7b") := by
    have word : Scan (Text.ofString "int") [(.ident, Text.ofString "int")]
        (.char ' ' :: (name ++ Text.ofString "(int count, char *name) \x7b")) :=
      scan_identifier ⟨by decide, by decide⟩ (by decide) (by decide) _
    exact word.append (.gap (by decide) .nil)
  have head := reads_around free int (by decide) (by decide +kernel)
  have buffer : Reads (Text.ofString "    char buf[256];") _ := .of_scan (.of_words (by decide +kernel))
  have lines := head.above (.behind (by decide +kernel) (by decide +kernel)) buffer
  have whole := (Reads.of_scan (.of_words front.read)).above front.line lines
  rw [opening, Text.ofLines_cons, Text.ofLines_cons, Text.ofLines_singleton, List.append_assoc]
  refine .of_unlisted whole ?_ ?_
  · exact (Word.Finished.behind (by decide +kernel) (by decide +kernel)).behind (by
      rw [List.filter_append]
      exact List.append_ne_nil_of_right_ne_nil _ (by decide +kernel))
  · refine Word.unlisted_append.2 ⟨front.unlisted, Word.unlisted_append.2 ⟨?_, by decide +kernel⟩⟩
    exact Word.unlisted_append.2 ⟨free.behind (by decide), by decide +kernel⟩

theorem orderly_body {body : List Statement} (proper : ∀ s ∈ body, s.Proper) {file : Text}
    {rest : List Text} (filled : rest ≠ []) {n : Nat}
    (later : Source.Orderly ⟨file, Text.ofLines rest⟩ n) :
    Source.Orderly ⟨file, Text.ofLines (body.map Statement.line ++ rest)⟩
      ((body.map Statement.calls).sum + n) := by
  induction body with
  | nil => simpa using later
  | cons s others ih =>
      obtain ⟨here, behind⟩ := List.forall_mem_cons.1 proper
      have whole := here.block.above (ih behind)
      rw [List.map_cons, List.cons_append, ← List.singleton_append,
        Text.ofLines_append (by simp) (by simp [filled]), Text.ofLines_singleton, List.map_cons,
        List.sum_cons, Nat.add_assoc]
      exact whole

theorem block_return : Block (Text.ofString "    return 0;") 0 :=
  .of_unlisted (.of_scan (.of_words (by decide +kernel))) (by decide +kernel) (by decide +kernel)

theorem lead_close : Lead (Text.ofLines [Text.ofString "\x7d", []]) :=
  ⟨by decide +kernel, by decide +kernel, by decide +kernel⟩

theorem ofLines_function (lead : Text) (f : SampleFunction) (later : List Text) :
    Text.ofLines (lead :: f.text :: [] :: later) =
      (Text.ofLines (opening lead f.name)).above (Text.ofLines (f.body.map Statement.line ++
        (Text.ofString "    return 0;" :: Text.ofLines [Text.ofString "\x7d", []] :: later))) := by
  have lines := Text.ofLines_nested [lead] ((opening lead f.name).tail ++
    f.body.map Statement.line ++ [Text.ofString "    return 0;", Text.ofString "\x7d"])
    (by simp) ([] :: later)
  have close := Text.ofLines_nested
    (opening lead f.name ++ f.body.map Statement.line ++ [Text.ofString "    return 0;"])
    [Text.ofString "\x7d", []] (by simp) later
  rw [← Text.ofLines_append (by simp [opening]) (by simp)]
  simp only [List.append_assoc, List.singleton_append] at lines close
  rw [close]
  exact lines

/-- Nothing is wrong with functions below each other, and their calls are found. -/
theorem orderly_functions {functions : List SampleFunction} (proper : ∀ f ∈ functions, f.Proper)
    (file : Text) {lead : Text} (front : Lead lead) :
    Source.Orderly ⟨file, Text.ofLines (lead :: functions.flatMap fun f => [f.text, []])⟩
      (functions.map SampleFunction.calls).sum := by
  induction functions generalizing lead with
  | nil =>
      rw [List.flatMap_nil, Text.ofLines_singleton]
      exact Source.orderly_of_unlisted (.of_scan (.of_words front.read)) front.unlisted file
  | cons f later ih =>
      obtain ⟨here, others⟩ := List.forall_mem_cons.1 proper
      have below := block_return.above (ih others lead_close)
      rw [← Text.ofLines_cons, Nat.zero_add] at below
      have whole := (block_opening front here.name).above (orderly_body here.body (by simp) below)
      rw [List.flatMap_cons, List.map_cons, List.sum_cons, List.cons_append, List.singleton_append,
        ofLines_function]
      rwa [Nat.zero_add] at whole

def header (hasBanner : Bool) : List Text :=
  [Text.ofString "#include <stdio.h>", []] ++
    (if hasBanner then [Text.ofString "/* generated\n * test case\n */"] else [])

theorem lead_header (hasBanner : Bool) :
    Lead (Text.ofLines (header hasBanner)) ∧ Lead (Text.ofLines (header hasBanner ++ [[]])) := by
  cases hasBanner <;>
    exact ⟨⟨by decide +kernel, by decide +kernel, by decide +kernel⟩,
      ⟨by decide +kernel, by decide +kernel, by decide +kernel⟩⟩

theorem lead_blank : Lead [] := ⟨by decide +kernel, by decide +kernel, by decide +kernel⟩

/-- A printer that is used as a value is no call. -/
theorem block_pointer (hasBanner : Bool) :
    Block (Text.ofLines (header hasBanner ++ [Text.ofString "void *fn_ptr = printf;"])) 0 := by
  obtain ⟨front, words, unlisted⟩ : ∃ front,
      CType.words (Text.ofString "void *fn_ptr = printf;") =
        front ++ [(.ident, Text.ofString "printf"), Word.semicolon] ∧ Word.Unlisted front :=
    ⟨[(.ident, "void"), (.punct, "*"), (.ident, "fn_ptr"), (.punct, "=")], by decide +kernel,
      by decide⟩
  have lead := (lead_header hasBanner).1
  have pointer : Reads (Text.ofString "void *fn_ptr = printf;") _ :=
    .of_scan (.of_words (by decide +kernel))
  have reads := (Reads.of_scan (.of_words lead.read)).above lead.line pointer
  rw [words, ← List.append_assoc] at reads
  rw [Text.ofLines_append (by simp [header]) (by simp), Text.ofLines_singleton]
  refine ⟨⟨_, reads, .behind (by decide) (by decide)⟩, fun file => ?_⟩
  obtain ⟨tokens, cut, same⟩ := reads file
  rw [List.append_assoc] at same
  obtain ⟨uncalled, quiet⟩ := Mention.ofTokens_value (Word.unlisted_append.2 ⟨lead.unlisted, unlisted⟩) same
  have orderly := Source.orderly_of_mentions (s := ⟨file, _⟩) cut quiet
    (by rw [uncalled]; exact fun c found => absurd found List.not_mem_nil)
  rwa [uncalled] at orderly

theorem Program.Proper.orderly {p : Program} (proper : p.Proper) (file : Text) :
    Source.Orderly ⟨file, p.text⟩ p.calls := by
  obtain ⟨hasBanner, hasPointer, functions⟩ := p
  cases hasPointer with
  | false =>
      have text : Program.text ⟨hasBanner, false, functions⟩ = Text.ofLines
          (Text.ofLines (header hasBanner ++ [[]]) :: functions.flatMap fun f => [f.text, []]) := by
        have lines := Text.ofLines_nested [] (header hasBanner ++ [[]]) (by simp)
          (functions.flatMap fun f => [f.text, []])
        rw [List.nil_append] at lines
        rw [lines]
        simp [Program.text, header]
      rw [text]
      exact orderly_functions proper file (lead_header hasBanner).2
  | true =>
      have text : Program.text ⟨hasBanner, true, functions⟩ =
          (Text.ofLines (header hasBanner ++ [Text.ofString "void *fn_ptr = printf;"])).above
            (Text.ofLines ([] :: functions.flatMap fun f => [f.text, []])) := by
        rw [← Text.ofLines_append (by simp) (by simp)]
        simp [Program.text, header]
      have whole := (block_pointer hasBanner).above (orderly_functions proper file lead_blank)
      rw [text]
      rwa [Nat.zero_add] at whole

/-- Nothing is wrong with the file or with a revision of it: it has so many calls, and once they are
written out, its casts remain. -/
structure Faultless (s : Source) (calls : Nat) : Prop where
  clean : (s.analyze .standard).Clean
  calls : (s.analyze .standard).verdicts.length = calls
  typecast : ∃ revised, (s.analyze .standard).typecast = .ok revised ∧
    (Source.analyze ⟨s.name, revised⟩ .standard).Clean ∧
    (Source.analyze ⟨s.name, revised⟩ .standard).typecast = .ok revised
  optimize : ∃ revised, (s.analyze .standard).optimize = .ok revised ∧
    (Source.analyze ⟨s.name, revised⟩ .standard).Clean

/-- Whatever a program is drawn from, nothing is wrong with it, and as many calls are found as were
drawn: with a counter of these beside the source, the same program is drawn. -/
theorem drawProgram_faultless {σ : Type} [Draws σ] (state : σ) (file : Text) :
    let drawn := (drawProgram (σ := σ)).run state
    let counted := (drawProgram (σ := Counted σ)).run ⟨state, 0⟩
    counted.1 = drawn.1 ∧ counted.2.state = drawn.2 ∧
      Faultless ⟨file, drawn.1.text⟩ counted.2.calls := by
  intro drawn counted
  have whole : counted = (drawn.1, ⟨drawn.2, 0 + drawn.1.calls⟩) := counts_drawProgram ⟨state, 0⟩
  rw [Nat.zero_add] at whole
  rw [whole]
  have orderly := (drawProgram_proper state).orderly file
  refine ⟨rfl, rfl, orderly.clean, orderly.count, ?_, orderly.clean.optimize⟩
  exact orderly.clean.typecast orderly.nested

end Corpus

end FormatLint
