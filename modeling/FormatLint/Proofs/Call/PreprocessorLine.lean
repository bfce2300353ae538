import FormatLint.Proofs.Analysis.Exact
import FormatLint.Proofs.Call.Statements
import FormatLint.Proofs.Token.Insertion

/-!
A line with a preprocessor directive in front of a call. The name of the call takes the last word of
the directive for the token in front of it: `PreprocessorLine.findings_line` says that the call is
found exactly if that word neither declares a name nor accesses a member, and that everything else
is found in any case.
-/

namespace FormatLint

namespace Slot

def openParens (tokens : List Token) : Nat := tokens.foldl depthAfter 0

theorem depthAfter_mono {d e : Nat} (deeper : d ≤ e) (t : Token) : depthAfter d t ≤ depthAfter e t := by
  unfold depthAfter
  split <;> omega

theorem foldl_depthAfter_mono {d e : Nat} (deeper : d ≤ e) (tokens : List Token) :
    tokens.foldl depthAfter d ≤ tokens.foldl depthAfter e := by
  induction tokens generalizing d e with
  | nil => exact deeper
  | cons t tokens ih => exact ih (depthAfter_mono deeper t)

/-- A list that is closed, or ended by a semicolon, is cut without looking further. -/
theorem cut_append_closed {d : Nat} {tokens : List Token}
    (closed : tokens.foldl depthAfter (d + 1) = 0) (rest : List Token) :
    cut d (tokens ++ rest) = cut d tokens := by
  induction tokens generalizing d with
  | nil => cases closed
  | cons t tokens ih =>
      rw [List.cons_append, cut, cut]
      rw [List.foldl_cons] at closed
      split
      · rfl
      · split
        · rfl
        · rename_i inside
          split
          · rename_i comma
            have depth : depthAfter (d + 1) t = 0 + 1 := by simp [depthAfter, comma]
            rw [depth] at closed
            rw [ih closed]
          · have depth : depthAfter (d + 1) t = depthAfter d t + 1 := by
              unfold depthAfter
              split
              · rfl
              · rename_i closes
                have positive : d ≠ 0 := fun zero => inside ⟨zero, closes⟩
                omega
              · rfl
            rw [depth] at closed
            rw [ih closed]

/-- No argument list that begins in tokens which close all their parentheses reaches further. -/
theorem determined_of_closed {tokens : List Token} (closed : openParens tokens = 0)
    (rest : List Token) : Determined tokens rest := by
  rintro front opening later rfl opens
  have depth : depthAfter (openParens front) opening = openParens front + 1 := by
    simp [depthAfter, opens]
  rw [openParens, List.foldl_append, List.foldl_cons] at closed
  change later.foldl depthAfter (depthAfter (openParens front) opening) = 0 at closed
  rw [depth] at closed
  have below := foldl_depthAfter_mono (Nat.succ_le_succ (Nat.zero_le (openParens front))) later
  exact cut_append_closed (Nat.le_zero.1 (below.trans (Nat.le_of_eq closed))) rest

end Slot

/-- A call with the texts of its arguments, or what is wrong with an argument list. -/
inductive Finding where
  | call (printer : Printer) (arguments : List Text)
  | malformed (problem : Problem) (message : Text)
  deriving DecidableEq

def Argument.text (source : Source) (a : Argument) : Text :=
  source.slice a.span.start.offset a.span.stop.offset

namespace Mention

def finding? (source : Source) : Mention → Option Finding
  | .call c => some (.call c.printer (c.arguments.map (·.text source)))
  | .malformed d => some (.malformed d.problem d.message)
  | _ => none

def findings (source : Source) (mentions : List Mention) : List Finding :=
  mentions.filterMap (finding? source)

theorem findings_append (source : Source) (front back : List Mention) :
    findings source (front ++ back) = findings source front ++ findings source back :=
  List.filterMap_append

variable {source source' : Source} {mentions : List Mention}

theorem findings_congr
    (same : ∀ c, .call c ∈ mentions → ∀ a ∈ c.arguments, a.text source' = a.text source) :
    findings source' mentions = findings source mentions := by
  refine List.filterMap_congr fun m member => ?_
  cases m with
  | value name => rfl
  | declared name => rfl
  | malformed d => rfl
  | call c =>
      exact congrArg some (congrArg (Finding.call c.printer) (List.map_congr_left (same c member)))

/-- Mentions at other places are the same findings if their arguments have the same texts there. -/
theorem findings_relocate {r : Relocation}
    (same : ∀ c, .call c ∈ mentions → ∀ a ∈ c.arguments, (a.relocate r).text source' = a.text source) :
    findings source' (mentions.map (relocate r)) = findings source mentions := by
  rw [findings, List.filterMap_map]
  refine List.filterMap_congr fun m member => ?_
  cases m with
  | value name => rfl
  | declared name => rfl
  | malformed d => rfl
  | call c =>
      refine congrArg some (congrArg (Finding.call c.printer) ?_)
      change (c.arguments.map (Argument.relocate r)).map (·.text source') = _
      rw [List.map_map]
      exact List.map_congr_left (same c member)

end Mention

/-- A number sign with words behind it, none of which is a quote, a comment, a parenthesis or the name
of a printer. -/
structure PreprocessorDirective (table : PrinterTable) where
  text : Text
  words : List Lexeme
  read : Lexeme.ofText text = .ok words
  mark : text.head? = some (.char '#')
  line : .char '\n' ∉ text
  plain : ∀ w ∈ words, w.kind ∉ [.comment, .string, .char, .openParen, .closeParen]
  unlisted : ∀ w ∈ words, w.kind = .ident → table.find? w.text = none

namespace PreprocessorDirective

variable {table : PrinterTable} (d : PreprocessorDirective table)

def code : List Lexeme := d.words.dropLast

/-- The last word declares the name behind it, or accesses a member of that name. -/
def hides : Bool := d.code.getLast?.any fun w =>
  (w.kind = .punct && w.text ∈ [Text.ofString ".", "->"]) ||
    (w.kind = .ident && w.text ∉ Mention.expressionKeywords)

theorem parts : ∃ blanks, d.words = d.code ++ [⟨blanks, .eof, []⟩] ∧
    d.text = Lexeme.flatten d.code ++ blanks ∧ Lexeme.Chain d.code blanks ∧
    (∀ g ∈ blanks, Lexeme.isGap g = true) ∧ d.code ≠ [] := by
  obtain ⟨chain, blanks, words, text, chained, gaps⟩ := Lexeme.ofText_eq_ok_iff.1 d.read
  have code : d.code = chain := by rw [PreprocessorDirective.code, words, List.dropLast_concat]
  rw [code]
  refine ⟨blanks, words, text, chained, gaps, ?_⟩
  rintro rfl
  have mark := d.mark
  rw [text, Lexeme.flatten, List.flatMap_nil, List.nil_append] at mark
  have gap := gaps _ (List.mem_of_head? mark)
  revert gap
  decide

theorem code_subset : d.code ⊆ d.words := (List.dropLast_sublist d.words).subset

theorem declares_last (file : Text) (p : Position) (previous : Option Token) :
    (Mention.previousOf previous (Token.place file p d.code)).any Mention.declares = d.hides := by
  obtain ⟨_, _, _, _, _, present⟩ := d.parts
  rcases List.eq_nil_or_concat d.code with empty | ⟨front, last, code⟩
  · exact absurd empty present
  · rw [List.concat_eq_append] at code
    have member : last ∈ d.words := d.code_subset (by rw [code]; simp)
    have kind := d.plain last member
    have noComment : last.kind ≠ .comment := fun comment => kind (by simp [comment])
    rw [hides, Mention.previousOf, code, Token.place_append, Token.code_append, List.getLast?_concat]
    simp [Token.place, Token.code, Token.isComment, noComment, Mention.declares, Token.isPunct]

end PreprocessorDirective

/-- A directive on a line of its own, in front of the name of a printer that an argument list follows.
The name stands outside all parentheses, where a statement may begin. -/
structure PreprocessorLine (table : PrinterTable) (source : Source) where
  directive : PreprocessorDirective table
  front : List Token
  name : Token
  back : List Token
  printer : Printer
  lead : Text
  read : Token.tokenize source.name source.content = .ok (front ++ name :: back)
  ident : name.kind = .ident
  listed : table.find? name.lexeme = some printer
  opens : ∃ t ∈ (back.dropWhile Token.isComment).head?, t.kind = .openParen
  outside : Slot.openParens front = 0
  starts : ∀ t ∈ (Token.code front).getLast?, t.isPunct [";", "\x7b", "\x7d"] = true
  own : lead = [.char '\n'] ∨ lead = [] ∧ ∀ t ∈ front, t.span.stop.line < name.span.start.line

namespace PreprocessorLine

variable {table : PrinterTable} {source : Source} (line : PreprocessorLine table source)

def tokens : List Token := line.front ++ line.name :: line.back

def added : Text := line.lead ++ (line.directive.text ++ [.char '\n'])

def inserted : Source where
  name := source.name
  content := Token.insertBefore source.content line.name line.added

def before : List Finding := Mention.findings source (Mention.scan table none line.front)

def here : List Finding :=
  Mention.findings source [Mention.classify line.printer none line.name line.back]

def behind : List Finding :=
  Mention.findings source (Mention.scan table (some line.name) line.back)

theorem offset_le : line.name.span.start.offset ≤ source.content.length := by
  obtain ⟨front, ⟨rest, whole⟩, span⟩ := Token.span_of_tokenize line.read line.name (by simp)
  have offset := Position.first.after_offset front
  have zero : Position.first.offset = 0 := rfl
  rw [← whole, List.length_append, List.length_append, span]
  dsimp only
  omega

theorem slice_front {start stop : Nat} (inside : stop ≤ line.name.span.start.offset) :
    line.inserted.slice start stop = source.slice start stop := by
  have within := line.offset_le
  rw [Source.slice, Source.slice, inserted, Token.insertBefore]
  dsimp only
  rw [List.take_append_of_le_length (by rw [List.length_take]; omega), List.take_take,
    Nat.min_eq_left inside]

theorem slice_back {start stop : Nat} (first : line.name.span.start.offset ≤ start)
    (last : line.name.span.start.offset ≤ stop) :
    line.inserted.slice (start + line.added.length) (stop + line.added.length) =
      source.slice start stop := by
  obtain ⟨i, rfl⟩ := Nat.exists_eq_add_of_le first
  obtain ⟨j, rfl⟩ := Nat.exists_eq_add_of_le last
  have whole := List.take_append_drop line.name.span.start.offset source.content
  have length : (source.content.take line.name.span.start.offset).length =
      line.name.span.start.offset := by
    rw [List.length_take, Nat.min_eq_left line.offset_le]
  rw [Source.slice, Source.slice, inserted, Token.insertBefore]
  dsimp only
  conv => rhs; rw [← whole]
  generalize source.content.take line.name.span.start.offset = front at length
  generalize source.content.drop line.name.span.start.offset = back
  have shift (n : Nat) : line.name.span.start.offset + n + line.added.length =
      front.length + (line.added.length + n) := by omega
  rw [shift, shift, ← length]
  simp only [List.take_length_add_append, List.drop_length_add_append]

theorem front_inside : ∀ t ∈ line.front, t.span.stop.offset ≤ line.name.span.start.offset := by
  obtain ⟨before, l, later, blanks, _, _, _, front, placed⟩ :=
    Token.tokenize_split line.read (by simp [line.ident])
  intro t member
  rw [front] at member
  obtain ⟨_, _, last⟩ := Token.place_inside member
  have zero : Position.first.offset = 0 := rfl
  rw [(List.cons.inj placed).1]
  dsimp only
  rw [Position.after_offset, Position.after_offset]
  omega

theorem back_inside : ∀ t ∈ line.name :: line.back,
    line.name.span.start.offset ≤ t.span.start.offset ∧ t.span.start.offset ≤ t.span.stop.offset := by
  obtain ⟨before, l, later, blanks, _, _, _, front, placed⟩ :=
    Token.tokenize_split line.read (by simp [line.ident])
  obtain ⟨name, back⟩ := List.cons.inj placed
  intro t member
  rcases List.mem_cons.1 member with rfl | member
  · refine ⟨Nat.le_refl _, ?_⟩
    rw [name]
    dsimp only
    rw [Position.after_offset _ l.text]
    omega
  · rw [back] at member
    obtain ⟨first, order, _⟩ := Token.place_inside member
    refine ⟨?_, order⟩
    rw [name]
    dsimp only at first ⊢
    rw [Position.after_offset] at first
    omega

theorem apart : line.lead ≠ [] ∨
    ∀ t ∈ line.front, t.span.stop.offset < line.name.span.start.offset := by
  rcases line.own with lead | ⟨_, earlier⟩
  · rw [lead]
    exact .inl (List.cons_ne_nil _ _)
  · refine .inr fun t member => Nat.lt_of_le_of_ne (line.front_inside t member) fun same => ?_
    obtain ⟨front, begins, span⟩ := Token.span_of_tokenize line.read t
      (List.mem_append_left _ member)
    obtain ⟨front', begins', span'⟩ := Token.span_of_tokenize line.read line.name (by simp)
    have above := earlier t member
    rw [span, span'] at same above
    dsimp only at same above
    rw [Position.after_offset, Position.after_offset, Nat.add_left_cancel_iff] at same
    have start : front' <+: source.content := (List.prefix_append _ _).trans begins'
    have equal := (List.prefix_of_prefix_length_le begins start (Nat.le_of_eq same)).eq_of_length same
    rw [equal] at above
    exact Nat.lt_irrefl _ above

theorem leading : ∀ g ∈ line.lead, Lexeme.isGap g = true := by
  rcases line.own with lead | ⟨lead, _⟩ <;> rw [lead] <;> decide

def words : List Token :=
  Token.place source.name (line.name.span.start.after line.lead) line.directive.code

/-- Where what stands behind the line has moved to. -/
def move : Relocation := .rebase line.name.span.start (line.name.span.start.after line.added)

theorem words_unlisted : ∀ t ∈ line.words, t.kind = .ident → table.find? t.lexeme = none := by
  intro t member ident
  have listed := List.mem_map_of_mem (f := fun t : Token => (t.kind, t.lexeme)) member
  rw [words, Token.place_lexemes] at listed
  obtain ⟨w, inside, same⟩ := List.mem_map.1 listed
  obtain ⟨kind, text⟩ := Prod.mk.inj same
  rw [← text]
  exact line.directive.unlisted w (line.directive.code_subset inside) (kind.trans ident)

theorem tokenize_inserted : Token.tokenize line.inserted.name line.inserted.content =
    .ok (line.front ++ (line.words ++ (line.name :: line.back).map (Token.relocate line.move))) := by
  obtain ⟨blanks, _, text, chain, gaps, present⟩ := line.directive.parts
  have code : ∀ w ∈ line.directive.code, w.kind ≠ .comment := by
    intro w member comment
    exact line.directive.plain w (line.directive.code_subset member) (by simp [comment])
  have read := Token.tokenize_insert line.read (by simp [line.ident]) line.leading line.apart
    (chain.on_line gaps code) present (Lexeme.isGap_feed gaps)
  rw [words, move, inserted, added, text, List.append_assoc]
  exact read

theorem findings_front : Mention.findings line.inserted (Mention.scan table none line.front) =
    line.before := by
  refine Mention.findings_congr fun c found a listed => ?_
  have tokens := Analysis.argument_tokens
    (List.mem_filterMap.2 ⟨_, found, rfl⟩) a listed
  exact line.slice_front (line.front_inside _ (tokens (List.getLast_mem a.nonempty)))

theorem findings_back {mentions : List Mention}
    (among : mentions ⊆ Mention.scan table none (line.name :: line.back)) :
    Mention.findings line.inserted (mentions.map (Mention.relocate line.move)) =
      Mention.findings source mentions := by
  refine Mention.findings_relocate fun c found a listed => ?_
  have tokens := Analysis.argument_tokens
    (List.mem_filterMap.2 ⟨_, among found, rfl⟩) a listed
  have first : line.name.span.start.offset ≤ a.span.start.offset :=
    (line.back_inside _ (tokens (List.head_mem a.nonempty))).1
  have last : line.name.span.start.offset ≤ a.span.stop.offset := by
    obtain ⟨start, order⟩ := line.back_inside _ (tokens (List.getLast_mem a.nonempty))
    exact start.trans order
  have moved {p : Position} (behind : line.name.span.start.offset ≤ p.offset) :
      (line.move.place p).offset = p.offset + line.added.length := by
    have added := line.name.span.start.after_offset line.added
    change (line.name.span.start.after line.added).offset +
      (p.offset - line.name.span.start.offset) = _
    omega
  rw [Argument.text, Argument.text, Argument.span_relocate, Span.relocate]
  dsimp only
  rw [moved first, moved last]
  exact line.slice_back first last

/-- The name is read with its argument list, unless what stands in front declares it. -/
theorem exists_classify : ∃ opening rest, ∀ previous : Option Token,
    Mention.classify line.printer previous line.name line.back =
      if previous.any Mention.declares then .declared line.name
      else Mention.readCall line.printer line.name opening rest := by
  obtain ⟨next, first, opens⟩ := line.opens
  cases later : line.back.dropWhile Token.isComment with
  | nil =>
      rw [later] at first
      cases first
  | cons t rest =>
      rw [later] at first
      cases first
      refine ⟨next, rest, fun previous => ?_⟩
      rw [Mention.classify, later]
      dsimp only
      rw [if_neg (not_not_intro opens)]

theorem classify_eq (previous : Option Token) :
    Mention.classify line.printer previous line.name line.back =
      if previous.any Mention.declares then .declared line.name
      else Mention.classify line.printer none line.name line.back := by
  obtain ⟨opening, rest, read⟩ := line.exists_classify
  rw [read, read]
  rfl

theorem length_here : line.here.length = 1 := by
  have isCall : (Mention.classify line.printer none line.name line.back).isCall = true := by
    obtain ⟨opening, rest, read⟩ := line.exists_classify
    rw [read]
    exact Mention.readCall_isCall ..
  rw [here, Mention.findings]
  revert isCall
  cases Mention.classify line.printer none line.name line.back with
  | value _ => exact fun isCall => Bool.noConfusion isCall
  | declared _ => exact fun isCall => Bool.noConfusion isCall
  | call _ => exact fun _ => rfl
  | malformed _ => exact fun _ => rfl

theorem scan_name (previous : Option Token) :
    Mention.scan table previous (line.name :: line.back) =
      Mention.classify line.printer previous line.name line.back ::
        Mention.scan table (some line.name) line.back := by
  have noComment : line.name.isComment = false := by simp [Token.isComment, line.ident]
  rw [Mention.scan, if_pos line.ident, line.listed, noComment]
  rfl

theorem scan_front (rest : List Token) :
    Mention.scan table none (line.front ++ rest) = Mention.scan table none line.front ++
      Mention.scan table (Mention.previousOf none line.front) rest := by
  refine Mention.scan_append none (Slot.determined_of_closed line.outside rest)
    fun last member ident => ?_
  have punct := line.starts last member
  simp [Token.isPunct, ident] at punct

theorem free_front : (Mention.previousOf none line.front).any Mention.declares = false := by
  rw [Mention.previousOf, Option.or_none]
  cases code : (Token.code line.front).getLast? with
  | none => rfl
  | some last =>
      have apart : ∀ t ∈ [Text.ofString ";", "\x7b", "\x7d"], t ∉ [Text.ofString ".", "->"] := by
        decide
      have punct := line.starts last code
      simp only [Token.isPunct, Bool.and_eq_true, decide_eq_true_eq] at punct
      have other := apart _ punct.2
      simp only [Option.any_some, Mention.declares, Token.isPunct, punct.1, other]
      rfl

theorem findings_source : Mention.findings source (Mention.ofTokens table line.tokens) =
    line.before ++ (line.here ++ line.behind) := by
  rw [Mention.ofTokens, tokens, scan_front, @Mention.scan_previous _ none _ line.free_front,
    scan_name, ← List.singleton_append, Mention.findings_append, Mention.findings_append]
  rfl

theorem findings_inserted {tokens : List Token}
    (read : Token.tokenize line.inserted.name line.inserted.content = .ok tokens) :
    Mention.findings line.inserted (Mention.ofTokens table tokens) =
      line.before ++ ((if line.directive.hides then [] else line.here) ++ line.behind) := by
  rw [line.tokenize_inserted] at read
  cases read
  have hides := line.directive.declares_last source.name (line.name.span.start.after line.lead)
    (Mention.previousOf none line.front)
  rw [Mention.ofTokens, scan_front, Mention.findings_append, findings_front,
    Mention.scan_unlisted line.words_unlisted]
  refine congrArg (line.before ++ ·) ?_
  change (Mention.previousOf _ line.words).any Mention.declares = _ at hides
  generalize Mention.previousOf _ line.words = last at hides
  have same : last.any Mention.declares =
      (last.map (Token.relocate line.move)).any Mention.declares := by
    cases last <;> rfl
  have all := line.scan_name none
  rw [Mention.scan_previous same, Mention.scan_relocate, scan_name, classify_eq, hides]
  cases line.directive.hides with
  | true =>
      have later := line.findings_back
        (by
          rw [all]
          exact List.subset_cons_self _ _)
      exact later
  | false =>
      have both := line.findings_back
        (List.Subset.refl _)
      rw [all, ← List.singleton_append, Mention.findings_append] at both
      exact both

/-- The file with the line can be read. What is found in front of the call and behind it stays, and
what is found at the call does so unless the last word of the directive declares a name or accesses a
member. -/
theorem findings_line : line.here.length = 1 ∧
    Mention.findings source (Mention.ofTokens table line.tokens) =
      line.before ++ (line.here ++ line.behind) ∧
    ∃ tokens, Token.tokenize line.inserted.name line.inserted.content = .ok tokens ∧
      Mention.findings line.inserted (Mention.ofTokens table tokens) =
        line.before ++ ((if line.directive.hides then [] else line.here) ++ line.behind) :=
  ⟨line.length_here, line.findings_source, _, line.tokenize_inserted,
    line.findings_inserted line.tokenize_inserted⟩

end PreprocessorLine

namespace PreprocessorLine

def callWords : List Lexeme :=
  [⟨[], .ident, "printf"⟩, ⟨[], .openParen, "("⟩, ⟨[], .string, "\"%d\""⟩, ⟨[], .comma, ","⟩,
    ⟨[.char ' '], .ident, "x"⟩, ⟨[], .closeParen, ")"⟩, ⟨[], .punct, ";"⟩]

theorem chain_callWords : Lexeme.Chain callWords [] := by
  repeat' first
    | exact .nil
    | refine .cons (by decide) (by decide) (Head.read_iff_form.1 rfl) ?_

/-- A directive in front of the call. -/
def atCall (directive : PreprocessorDirective .standard) :
    PreprocessorLine .standard ⟨[], Lexeme.flatten callWords⟩ where
  directive := directive
  front := []
  name := ⟨.ident, "printf", ⟨[], .first, ⟨6, 1, 7⟩⟩⟩
  back := (Token.place [] .first (callWords ++ [⟨[], .eof, []⟩])).tail
  printer := ⟨"printf", [], true⟩
  lead := []
  read := by
    rw [Token.tokenize, Lexeme.ofText_words chain_callWords]
    decide
  ident := rfl
  listed := by decide
  opens := by decide
  outside := rfl
  starts := by decide
  own := by decide

def ifZero : List Lexeme :=
  [⟨[], .punct, "#"⟩, ⟨[], .ident, "if"⟩, ⟨[.char ' '], .other, "0"⟩]

theorem chain_ifZero : Lexeme.Chain ifZero [] := by
  repeat' first
    | exact .nil
    | refine .cons (by decide) (by decide) (Head.read_iff_form.1 rfl) ?_

/-- A number at the end of a directive does not hide the call. -/
theorem findings_line_ifZero : ∃ line : PreprocessorLine .standard ⟨[], Lexeme.flatten callWords⟩,
    line.directive.text = Text.ofString "#if 0" ∧ line.before ++ (line.here ++ line.behind) =
      [.call ⟨"printf", [], true⟩ ["\"%d\"", "x"]] ∧
    ∃ tokens, Token.tokenize line.inserted.name line.inserted.content = .ok tokens ∧
      Mention.findings line.inserted (Mention.ofTokens .standard tokens) =
        [.call ⟨"printf", [], true⟩ ["\"%d\"", "x"]] := by
  let line := atCall ⟨Lexeme.flatten ifZero, ifZero ++ [⟨[], .eof, []⟩], Lexeme.ofText_words chain_ifZero,
    by decide, by decide, by decide, by decide⟩
  have found : line.before ++ (line.here ++ line.behind) =
      [.call ⟨"printf", [], true⟩ ["\"%d\"", "x"]] := by decide
  obtain ⟨_, _, tokens, read, kept⟩ := findings_line line
  exact ⟨line, by decide, found, tokens, read, kept.trans found⟩

def endIf : List Lexeme := [⟨[], .punct, "#"⟩, ⟨[], .ident, "endif"⟩]

theorem chain_endIf : Lexeme.Chain endIf [] := by
  repeat' first
    | exact .nil
    | refine .cons (by decide) (by decide) (Head.read_iff_form.1 rfl) ?_

/-- A line `#endif` in front of the call. -/
def endIfLine : PreprocessorLine .standard ⟨[], Lexeme.flatten callWords⟩ :=
  atCall ⟨Lexeme.flatten endIf, endIf ++ [⟨[], .eof, []⟩], Lexeme.ofText_words chain_endIf, by decide,
    by decide, by decide, by decide⟩

/-- Behind the line the call is not found. -/
theorem endIf_hides :
    endIfLine.inserted.content = Text.ofString "#endif\nprintf(\"%d\", x);" ∧
      Mention.findings ⟨[], Lexeme.flatten callWords⟩
          (Mention.ofTokens .standard endIfLine.tokens) =
        [.call ⟨"printf", [], true⟩ ["\"%d\"", "x"]] ∧
      ∃ tokens, Token.tokenize endIfLine.inserted.name endIfLine.inserted.content = .ok tokens ∧
        Mention.findings endIfLine.inserted (Mention.ofTokens .standard tokens) = [] := by
  have hides : endIfLine.directive.hides = true := by decide
  have alone : endIfLine.before = [] ∧ endIfLine.behind = [] := by decide
  have found : endIfLine.here = [.call ⟨"printf", [], true⟩ ["\"%d\"", "x"]] := by decide
  refine ⟨by decide, ?_, _, endIfLine.tokenize_inserted, ?_⟩
  · rw [findings_source, alone.1, alone.2, found]
    rfl
  · rw [findings_inserted _ endIfLine.tokenize_inserted, if_pos hides, alone.1, alone.2]
    rfl

end PreprocessorLine

end FormatLint
