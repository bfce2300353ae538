import FormatLint.Proofs.Analysis.Like

/-!
Comments do not matter. `Mention.scan_code` says that the mentions in a list of tokens are those in
it without its comments, and `Call.check_bare` that the same is said about their calls.
-/

namespace FormatLint

namespace Token

theorem code_cons_comment {t : Token} {rest : List Token} (comment : t.isComment = true) :
    code (t :: rest) = code rest := by simp [code, comment]

theorem code_cons {t : Token} {rest : List Token} (other : t.isComment = false) :
    code (t :: rest) = t :: code rest := by simp [code, other]

theorem code_of_plain {tokens : List Token} (plain : ∀ t ∈ tokens, t.kind ≠ .comment) :
    code tokens = tokens :=
  List.filter_eq_self.2 fun t member => by simpa [isComment] using plain t member

theorem code_code (tokens : List Token) : code (code tokens) = code tokens := by simp [code]

theorem code_dropWhile (tokens : List Token) : code (tokens.dropWhile isComment) = code tokens := by
  induction tokens with
  | nil => rfl
  | cons t rest ih =>
      cases comment : t.isComment with
      | true => rw [List.dropWhile_cons_of_pos comment, ih, code_cons_comment comment]
      | false => rw [List.dropWhile_cons_of_neg (by simp [comment])]

theorem dropWhile_code (tokens : List Token) : (code tokens).dropWhile isComment = code tokens := by
  induction tokens with
  | nil => rfl
  | cons t rest ih =>
      cases comment : t.isComment with
      | true => rw [code_cons_comment comment, ih]
      | false => rw [code_cons comment, List.dropWhile_cons_of_neg (by simp [comment])]

theorem trimComments_code (tokens : List Token) : trimComments (code tokens) = code tokens := by
  have reversed : (code tokens).reverse = code tokens.reverse := by simp [code]
  rw [trimComments, dropWhile_code, reversed, dropWhile_code, code, code, List.filter_reverse,
    List.reverse_reverse]

end Token

namespace Argument

/-- The argument without the comments in it. -/
def bare (a : Argument) : Argument := (ofTokens? a.code).getD a

/-- The argument neither begins nor ends with a comment. -/
def Trimmed (a : Argument) : Prop := a.first.kind ≠ .comment ∧ a.last.kind ≠ .comment

variable {a : Argument}

theorem Trimmed.code_ne_nil (trimmed : a.Trimmed) : a.code ≠ [] := by
  have member : a.first ∈ a.code :=
    List.mem_filter.2 ⟨a.first_mem, by simpa [Token.isComment] using trimmed.1⟩
  exact List.ne_nil_of_mem member

theorem Trimmed.bare_tokens (trimmed : a.Trimmed) : a.bare.tokens = a.code := by
  simp [bare, ofTokens?, trimmed.code_ne_nil]

theorem Trimmed.bare_code (trimmed : a.Trimmed) : a.bare.code = a.code := by
  rw [code, trimmed.bare_tokens, code, Token.code_code]

theorem Trimmed.bare_first (trimmed : a.Trimmed) : a.bare.first = a.first := by
  have begins : a.code.head? = some a.first := by
    have whole : a.tokens = a.first :: a.tokens.tail := (List.cons_head_tail a.nonempty).symm
    rw [code, whole, Token.code_cons (by simpa [Token.isComment] using trimmed.1)]
    rfl
  rw [← trimmed.bare_tokens, List.head?_eq_some_head a.bare.nonempty] at begins
  exact Option.some.inj begins

theorem Trimmed.bare_last (trimmed : a.Trimmed) : a.bare.last = a.last := by
  have ends : a.code.getLast? = some a.last := by
    have whole : a.tokens = a.tokens.dropLast ++ [a.last] :=
      (List.dropLast_concat_getLast a.nonempty).symm
    rw [code, whole, Token.code_append,
      Token.code_cons (by simpa [Token.isComment] using trimmed.2)]
    simp [Token.code]
  rw [← trimmed.bare_tokens, List.getLast?_eq_some_getLast a.bare.nonempty] at ends
  exact Option.some.inj ends

theorem Trimmed.bare_span (trimmed : a.Trimmed) : a.bare.span = a.span :=
  congrArg₂ (fun first last : Token => first.span.through last.span) trimmed.bare_first
    trimmed.bare_last

theorem Trimmed.bare_cast? (trimmed : a.Trimmed) : a.bare.cast? = a.cast? := by
  rw [cast?, trimmed.bare_code, cast?]

theorem Trimmed.ofArgument?_bare (trimmed : a.Trimmed) :
    FormatString.ofArgument? a.bare = FormatString.ofArgument? a := by
  simp only [FormatString.ofArgument?, isStringLiteral, literalBreaks, literalBodies,
    trimmed.bare_code, trimmed.bare_span]
  rfl

end Argument

namespace Slot

/-- The slot without the comments in it. -/
def bare (s : Slot) : Slot := ⟨Token.code s.tokens, s.stop⟩

theorem map_bare_consFirst (t : Token) (slots : List Slot) :
    (consFirst t slots).map bare =
      if t.isComment then slots.map bare else consFirst t (slots.map bare) := by
  cases slots with
  | nil => simp [consFirst]
  | cons s later =>
      cases comment : t.isComment with
      | true => simp [consFirst, bare, Token.code_cons_comment comment]
      | false => simp [consFirst, bare, Token.code_cons comment]

/-- Cutting does not look at comments. -/
theorem cut_code (d : Nat) (tokens : List Token) :
    cut d (Token.code tokens) = (cut d tokens).map (List.map bare) := by
  induction tokens generalizing d with
  | nil => rfl
  | cons t rest ih =>
      cases comment : t.isComment with
      | true =>
          have kind := Token.isComment_iff.1 comment
          rw [Token.code_cons_comment comment, ih, cut]
          simp [endsStatement, Token.isPunct, kind, depthAfter, Function.comp_def,
            map_bare_consFirst, comment]
      | false =>
          rw [Token.code_cons comment, cut, cut]
          split
          · rfl
          · split
            · rfl
            · split
              · rw [ih, Option.map_map, Option.map_map]
                rfl
              · simp [ih, Function.comp_def, map_bare_consFirst, comment]

theorem bare_trimmed (s : Slot) : s.bare.trimmed = Token.code s.trimmed := by
  rw [trimmed, bare, Token.trimComments_code, trimmed, Token.code_trimComments]

theorem bare_trimmed_nil_iff (s : Slot) : s.bare.trimmed = [] ↔ s.trimmed = [] := by
  rw [trimmed_eq_nil_iff, trimmed_eq_nil_iff]
  constructor
  · intro blank t member
    by_contra code
    exact code (blank t (List.mem_filter.2 ⟨member, by simpa [Token.isComment] using code⟩))
  · exact fun blank t member => blank t (List.mem_filter.1 member).1

theorem trimmed_of_ofTokens? {s : Slot} {a : Argument}
    (made : Argument.ofTokens? s.trimmed = some a) : a.Trimmed := by
  have tokens := tokens_of_ofTokens? made
  constructor
  · refine Token.trimComments_head s.tokens _ ?_
    rw [Option.mem_def, ← trimmed, ← tokens]
    exact List.head?_eq_some_head a.nonempty
  · refine Token.trimComments_last s.tokens _ ?_
    rw [Option.mem_def, ← trimmed, ← tokens]
    exact List.getLast?_eq_some_getLast a.nonempty

theorem arguments_bare (slots : List Slot) :
    ((slots.map bare).filterMap fun s => Argument.ofTokens? s.trimmed) =
      (slots.filterMap fun s => Argument.ofTokens? s.trimmed).map Argument.bare := by
  rw [List.filterMap_map, List.map_filterMap]
  refine List.filterMap_congr fun s _ => ?_
  rw [Function.comp_apply, bare_trimmed]
  cases made : Argument.ofTokens? s.trimmed with
  | none =>
      have blank : s.trimmed = [] := by
        simpa [Argument.ofTokens?] using made
      simp [blank, Token.code, Argument.ofTokens?]
  | some a =>
      have trimmed := trimmed_of_ofTokens? made
      have tokens := tokens_of_ofTokens? made
      rw [← tokens]
      change Argument.ofTokens? a.code = some a.bare
      rw [← trimmed.bare_tokens, Argument.ofTokens?_tokens]

theorem areBare_bare (slots : List Slot) : areBare (slots.map bare) = areBare slots := by
  match slots with
  | [] => rfl
  | [s] => simp only [List.map_cons, List.map_nil, areBare, bare_trimmed_nil_iff]
  | _ :: _ :: _ => rfl

theorem firstEmpty?_bare (before : Token) (slots : List Slot) :
    firstEmpty? before (slots.map bare) = firstEmpty? before slots := by
  induction slots generalizing before with
  | nil => rfl
  | cons s later ih =>
      simp only [List.map_cons, firstEmpty?, bare_trimmed_nil_iff, ih]
      rfl

theorem getLast?_bare (slots : List Slot) :
    ((slots.map bare).getLast?).map (·.stop) = slots.getLast?.map (·.stop) := by
  rw [List.getLast?_map, Option.map_map]
  rfl

end Slot

/-- The call without the comments in its arguments. -/
def Call.bare (c : Call) : Call := { c with arguments := c.arguments.map Argument.bare }

namespace Mention

/-- The mention without the comments in its arguments. -/
def bare : Mention → Mention
  | .call c => .call c.bare
  | mention => mention

theorem readCall_code (printer : Printer) (name opening : Token) (rest : List Token) :
    readCall printer name opening (Token.code rest) = (readCall printer name opening rest).bare := by
  unfold readCall
  rw [Slot.cut_code]
  cases Slot.cut 0 rest with
  | none => rfl
  | some slots =>
      simp only [Option.map_some, Slot.areBare_bare, Slot.getLast?_bare, Slot.firstEmpty?_bare,
        Slot.arguments_bare]
      split
      · rfl
      · split <;> rfl

theorem classify_code (printer : Printer) (previous : Option Token) (name : Token)
    (rest : List Token) :
    classify printer previous name (Token.code rest) = (classify printer previous name rest).bare := by
  unfold classify
  rw [Token.dropWhile_code, ← Token.code_dropWhile]
  have stops : ∀ t ∈ (rest.dropWhile Token.isComment).head?, t.kind ≠ .comment :=
    Token.dropWhile_head
  generalize rest.dropWhile Token.isComment = later at stops
  cases later with
  | nil => rfl
  | cons next later =>
      have other : next.isComment = false := by simpa [Token.isComment] using stops next rfl
      rw [Token.code_cons other]
      dsimp only
      split
      · rfl
      · split
        · rfl
        · exact readCall_code printer name next later

/-- Mentions are found without looking at comments. -/
theorem scan_code (table : PrinterTable) (previous : Option Token) (tokens : List Token) :
    scan table previous (Token.code tokens) = (scan table previous tokens).map bare := by
  induction tokens generalizing previous with
  | nil => rfl
  | cons t rest ih =>
      cases comment : t.isComment with
      | true =>
          have kind := Token.isComment_iff.1 comment
          rw [Token.code_cons_comment comment, ih, scan]
          simp [kind, comment]
      | false =>
          rw [Token.code_cons comment, scan, scan]
          simp only [comment, Bool.false_eq_true, if_false, ih, classify_code]
          split
          · split <;> rfl
          · rfl

theorem calls_bare (mentions : List Mention) :
    calls (mentions.map bare) = (calls mentions).map Call.bare := by
  rw [calls, calls, List.filterMap_map, List.map_filterMap]
  refine List.filterMap_congr fun m _ => ?_
  cases m <;> rfl

theorem diagnostics_bare (mentions : List Mention) :
    diagnostics (mentions.map bare) = diagnostics mentions := by
  rw [diagnostics, diagnostics, List.filterMap_map]
  refine List.filterMap_congr fun m _ => ?_
  cases m <;> rfl

theorem mem_scan {table : PrinterTable} {previous : Option Token} {tokens : List Token} {m : Mention}
    (found : m ∈ scan table previous tokens) : (∃ name, m = .value name) ∨
      (∃ name, m = .declared name) ∨
        ∃ printer name opening rest, m = readCall printer name opening rest := by
  induction tokens generalizing previous with
  | nil => cases found
  | cons t rest ih =>
      rw [scan] at found
      split at found
      · split at found
        · rename_i printer _
          rcases List.mem_cons.1 found with rfl | later
          · unfold classify
            split
            · exact .inl ⟨_, rfl⟩
            · split
              · exact .inl ⟨_, rfl⟩
              · split
                · exact .inr (.inl ⟨_, rfl⟩)
                · exact .inr (.inr ⟨_, _, _, _, rfl⟩)
          · exact ih later
        · exact ih found
      · exact ih found

theorem trimmed_of_scan {table : PrinterTable} {previous : Option Token} {tokens : List Token}
    {c : Call} (found : .call c ∈ scan table previous tokens) : ∀ a ∈ c.arguments, a.Trimmed := by
  obtain ⟨_, differs⟩ | ⟨_, differs⟩ | ⟨printer, name, opening, rest, read⟩ := mem_scan found
  · cases differs
  · cases differs
  · obtain ⟨slots, _, _, _, _, rfl⟩ := readCall_eq_call_iff.1 read.symm
    intro a member
    dsimp only [Slot.arguments] at member
    split at member
    · cases member
    · obtain ⟨s, _, made⟩ := List.mem_filterMap.1 member
      exact Slot.trimmed_of_ofTokens? made

/-- What is reported about a call that cannot be read was found when reading it. -/
theorem mem_diagnostics {table : PrinterTable} {previous : Option Token} {tokens : List Token}
    {d : Diagnostic} (member : d ∈ diagnostics (scan table previous tokens)) :
    ∃ printer name opening rest, readCall printer name opening rest = .malformed d := by
  obtain ⟨m, found, reported⟩ := List.mem_filterMap.1 member
  obtain ⟨_, rfl⟩ | ⟨_, rfl⟩ | ⟨printer, name, opening, rest, rfl⟩ := mem_scan found
  · cases reported
  · cases reported
  · refine ⟨printer, name, opening, rest, ?_⟩
    generalize readCall printer name opening rest = m at reported
    cases m with
    | malformed e => rw [Option.some.inj reported]
    | _ => cases reported

end Mention

/-- The same is said about a call with and without the comments in its arguments. -/
theorem Call.check_bare {c : Call} (trimmed : ∀ a ∈ c.arguments, a.Trimmed)
    (source source' : Source) :
    Places.same.SameVerdicts (c.check source) (c.bare.check source') ∧
      Places.same.SameVerdicts (c.bare.check source) (c.check source') := by
  have casts : c.bare.arguments.map Argument.castType? = c.arguments.map Argument.castType? := by
    rw [bare, List.map_map]
    refine List.map_congr_left fun a member => ?_
    simp only [Function.comp_apply, Argument.castType?, (trimmed a member).bare_cast?]
  refine ⟨check_same (.of_arguments rfl rfl ?_) casts, check_same (.of_arguments rfl rfl ?_) casts.symm⟩
  · rw [bare, List.forall₂_map_right_iff, List.forall₂_same]
    intro a member
    refine ⟨(trimmed a member).bare_span, ?_⟩
    rw [(trimmed a member).ofArgument?_bare]
    exact (Places.arguments_refl a).format
  · rw [bare, List.forall₂_map_left_iff, List.forall₂_same]
    intro a member
    refine ⟨(trimmed a member).bare_span.symm, ?_⟩
    rw [(trimmed a member).ofArgument?_bare]
    exact (Places.arguments_refl a).format

end FormatLint
