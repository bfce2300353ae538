import FormatLint.Call.Mention
import FormatLint.Proofs.Call.Balance

/-!
The sites of calls: the names of printers that an argument list follows. `Mention.calls_eq` and
`Mention.diagnostics_eq` say that the calls and the malformed calls of a file are what is read at
its sites, in their order.
-/

namespace FormatLint

/-- A name with what stands before it and the argument list that begins behind it. -/
structure Site where
  printer : Printer
  before : List Token
  name : Token
  comments : List Token
  opening : Token
  later : List Token

namespace Site

def tokens (s : Site) : List Token := s.before ++ s.name :: (s.comments ++ s.opening :: s.later)

/-- The name is an identifier of the table, only comments stand between it and the parenthesis, and
what comes before it makes it neither a member nor a declared name. -/
structure Tracked (table : PrinterTable) (s : Site) : Prop where
  ident : s.name.kind = .ident
  listed : table.find? s.name.lexeme = some s.printer
  comments : ∀ t ∈ s.comments, t.kind = .comment
  opens : s.opening.kind = .openParen
  member : ∀ previous ∈ (Token.code s.before).getLast?,
    ¬ (previous.kind = .punct ∧ previous.lexeme ∈ [Text.ofString ".", "->"])
  declared : ∀ previous ∈ (Token.code s.before).getLast?, previous.kind = .ident →
    previous.lexeme ∈ [Text.ofString "return", "else", "do", "case", "sizeof"]

def mention (s : Site) : Mention := Mention.readCall s.printer s.name s.opening s.later

def ofToken? (table : PrinterTable) (before : List Token) (t : Token) (rest : List Token) :
    Option Site :=
  match table.find? t.lexeme, rest.dropWhile Token.isComment with
  | some printer, opening :: later =>
    if t.kind = .ident && opening.kind = .openParen &&
        !(Token.code before).getLast?.any Mention.declares then
      some ⟨printer, before, t, rest.takeWhile Token.isComment, opening, later⟩
    else none
  | _, _ => none

def scan (table : PrinterTable) (before : List Token) : List Token → List Site
  | [] => []
  | t :: rest => (ofToken? table before t rest).toList ++ scan table (before ++ [t]) rest

theorem declares_eq_false_iff (previous : Token) :
    Mention.declares previous = false ↔
      ¬ (previous.kind = .punct ∧ previous.lexeme ∈ [Text.ofString ".", "->"]) ∧
        (previous.kind = .ident →
          previous.lexeme ∈ [Text.ofString "return", "else", "do", "case", "sizeof"]) := by
  simp only [Mention.declares, Token.isPunct, Mention.expressionKeywords, Bool.or_eq_false_iff,
    Bool.and_eq_false_iff, decide_eq_false_iff_not]
  grind

theorem any_declares_eq_false_iff {previous : Option Token} :
    previous.any Mention.declares = false ↔
      (∀ t ∈ previous, ¬ (t.kind = .punct ∧ t.lexeme ∈ [Text.ofString ".", "->"])) ∧
        ∀ t ∈ previous, t.kind = .ident →
          t.lexeme ∈ [Text.ofString "return", "else", "do", "case", "sizeof"] := by
  cases previous with
  | none => simp
  | some t => simpa using declares_eq_false_iff t

theorem dropWhile_comments (later : List Token) {comments : List Token} {opening : Token}
    (only : ∀ t ∈ comments, t.kind = .comment) (opens : opening.kind = .openParen) :
    (comments ++ opening :: later).takeWhile Token.isComment = comments ∧
      (comments ++ opening :: later).dropWhile Token.isComment = opening :: later := by
  have all : ∀ t ∈ comments, t.isComment = true :=
    fun t member => by simpa [Token.isComment] using only t member
  have stops : opening.isComment = false := by simp [Token.isComment, opens]
  rw [List.takeWhile_append_of_pos all, List.dropWhile_append_of_pos all]
  simp [stops]

theorem ofToken?_eq_some_iff {table : PrinterTable} {before rest : List Token} {t : Token}
    {s : Site} :
    ofToken? table before t rest = some s ↔
      s.before = before ∧ s.name = t ∧ rest = s.comments ++ s.opening :: s.later ∧
        s.Tracked table := by
  constructor
  · intro found
    unfold ofToken? at found
    split at found
    · rename_i printer opening later listed after
      split at found
      · rename_i accepted
        cases found
        simp only [Bool.and_eq_true, decide_eq_true_eq, Bool.not_eq_true'] at accepted
        obtain ⟨⟨ident, opens⟩, free⟩ := accepted
        obtain ⟨member, declared⟩ := any_declares_eq_false_iff.1 free
        refine ⟨rfl, rfl, ?_, ident, listed, ?_, opens, member, declared⟩
        · dsimp only
          rw [← after, List.takeWhile_append_dropWhile]
        · intro comment inside
          have kind := List.all_eq_true.1 List.all_takeWhile comment inside
          simpa [Token.isComment] using kind
      · cases found
    · cases found
  · rintro ⟨rfl, rfl, rfl, tracked⟩
    obtain ⟨front, back⟩ := dropWhile_comments s.later tracked.comments tracked.opens
    have free := any_declares_eq_false_iff.2 ⟨tracked.member, tracked.declared⟩
    simp [ofToken?, tracked.listed, front, back, tracked.ident, tracked.opens, free]

theorem mem_scan_iff {table : PrinterTable} {before tokens : List Token} {s : Site} :
    s ∈ scan table before tokens ↔
      s.tokens = before ++ tokens ∧ before <+: s.before ∧ s.Tracked table := by
  induction tokens generalizing before with
  | nil =>
      simp only [scan, List.not_mem_nil, List.append_nil, false_iff]
      rintro ⟨whole, ⟨more, longer⟩, _⟩
      have length := congrArg List.length whole
      rw [tokens, ← longer] at length
      simp at length
  | cons t rest ih =>
      rw [scan, List.mem_append, Option.mem_toList, ofToken?_eq_some_iff, ih]
      constructor
      · rintro (⟨rfl, rfl, rfl, tracked⟩ | ⟨whole, longer, tracked⟩)
        · exact ⟨rfl, List.prefix_refl _, tracked⟩
        · exact ⟨by simpa using whole, (List.prefix_append _ _).trans longer, tracked⟩
      · rintro ⟨whole, ⟨more, longer⟩, tracked⟩
        rw [tokens, ← longer, List.append_assoc] at whole
        have same := List.append_cancel_left whole
        cases more with
        | nil =>
            obtain ⟨name, after⟩ := List.cons.inj same
            exact .inl ⟨by simpa using longer.symm, name, after.symm, tracked⟩
        | cons first more =>
            obtain ⟨rfl, after⟩ := List.cons.inj same
            refine .inr ⟨?_, ⟨more, by simpa using longer⟩, tracked⟩
            rw [tokens, ← longer, ← after]
            simp

/-- The sites of a file, in order. -/
def ofTokens (table : PrinterTable) (tokens : List Token) : List Site := scan table [] tokens

theorem mem_ofTokens_iff {table : PrinterTable} {tokens : List Token} {s : Site} :
    s ∈ ofTokens table tokens ↔ s.tokens = tokens ∧ s.Tracked table := by
  simp [ofTokens, mem_scan_iff]

theorem scan_pairwise (table : PrinterTable) (before tokens : List Token) :
    (scan table before tokens).Pairwise fun first second =>
      first.before.length < second.before.length := by
  induction tokens generalizing before with
  | nil => exact .nil
  | cons t rest ih =>
      refine List.pairwise_append.2 ⟨?_, ih _, ?_⟩
      · cases ofToken? table before t rest <;> simp
      · intro first found second later
        obtain ⟨here, _⟩ := ofToken?_eq_some_iff.1 (Option.mem_toList.1 found)
        obtain ⟨_, longer, _⟩ := mem_scan_iff.1 later
        have length := longer.length_le
        rw [here]
        simp only [List.length_append, List.length_singleton] at length
        omega

theorem ofTokens_pairwise (table : PrinterTable) (tokens : List Token) :
    (ofTokens table tokens).Pairwise fun first second =>
      first.before.length < second.before.length := scan_pairwise table [] tokens

end Site

namespace Mention

/-- The mention is no value and no declaration. -/
def isCall : Mention → Bool
  | .call _ => true
  | .malformed _ => true
  | _ => false

theorem call?_eq_some_iff {m : Mention} {c : Call} : m.call? = some c ↔ m = .call c := by
  cases m <;> simp [call?]

theorem readCall_isCall (printer : Printer) (name opening : Token) (rest : List Token) :
    (readCall printer name opening rest).isCall = true := by
  unfold readCall
  split
  · rfl
  · dsimp only
    split
    · rfl
    · split <;> rfl

theorem code_snoc (before : List Token) (t : Token) :
    (Token.code (before ++ [t])).getLast? =
      if t.isComment then (Token.code before).getLast? else some t := by
  cases comment : t.isComment <;> simp [Token.code, comment]

theorem classify_filter (table : PrinterTable) (before rest : List Token) (t : Token)
    (ident : t.kind = .ident) {printer : Printer} (listed : table.find? t.lexeme = some printer) :
    [classify printer (Token.code before).getLast? t rest].filter isCall =
      (Site.ofToken? table before t rest).toList.map Site.mention := by
  unfold classify Site.ofToken?
  rw [listed]
  cases rest.dropWhile Token.isComment with
  | nil => simp [isCall]
  | cons opening later =>
      by_cases opens : opening.kind = .openParen
      · cases free : (Token.code before).getLast?.any declares with
        | false =>
            have call := readCall_isCall printer t opening later
            simp [ident, opens, Site.mention, call]
        | true => simp [opens, isCall]
      · simp [opens, isCall]

theorem scan_filter (table : PrinterTable) (before tokens : List Token) :
    (scan table (Token.code before).getLast? tokens).filter isCall =
      (Site.scan table before tokens).map Site.mention := by
  induction tokens generalizing before with
  | nil => rfl
  | cons t rest ih =>
      have later := ih (before ++ [t])
      rw [code_snoc] at later
      rw [scan, Site.scan, List.map_append, ← later]
      split
      · rename_i ident
        split
        · rename_i printer listed
          rw [← classify_filter table before rest t ident listed, ← List.filter_append]
          rfl
        · rename_i unlisted
          simp [Site.ofToken?, unlisted]
      · rename_i other
        have unsited : Site.ofToken? table before t rest = none := by
          unfold Site.ofToken?
          split <;> simp [other]
        simp [unsited]

theorem ofTokens_filter (table : PrinterTable) (tokens : List Token) :
    (ofTokens table tokens).filter isCall = (Site.ofTokens table tokens).map Site.mention :=
  scan_filter table [] tokens

theorem filterMap_isCall {α : Type} {f : Mention → Option α} (mentions : List Mention)
    (skips : ∀ mention, mention.isCall = false → f mention = none) :
    mentions.filterMap f = (mentions.filter isCall).filterMap f := by
  rw [List.filterMap_filter]
  congr 1
  funext mention
  cases call : mention.isCall with
  | true => rfl
  | false => exact skips mention call

theorem calls_filter (mentions : List Mention) : calls (mentions.filter isCall) = calls mentions := by
  refine (filterMap_isCall mentions fun mention other => ?_).symm
  cases mention <;> simp_all [isCall, call?]

theorem diagnostics_filter (mentions : List Mention) :
    diagnostics (mentions.filter isCall) = diagnostics mentions := by
  refine (filterMap_isCall mentions fun mention other => ?_).symm
  cases mention <;> simp_all [isCall, diagnostic?]

/-- The calls of a file are those that are read at its sites. -/
theorem calls_eq (table : PrinterTable) (tokens : List Token) :
    calls (ofTokens table tokens) =
      (Site.ofTokens table tokens).filterMap fun s => s.mention.call? := by
  rw [← calls_filter, ofTokens_filter, calls, List.filterMap_map]
  rfl

/-- The malformed calls of a file are those that are found at its sites. -/
theorem diagnostics_eq (table : PrinterTable) (tokens : List Token) :
    diagnostics (ofTokens table tokens) =
      (Site.ofTokens table tokens).filterMap fun s => s.mention.diagnostic? := by
  rw [← diagnostics_filter, ofTokens_filter, diagnostics, List.filterMap_map]
  rfl

end Mention

end FormatLint
