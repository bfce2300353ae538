import FormatLint.Proofs.Cast.OpenBrackets
import FormatLint.Proofs.Cast.Spelling

/-!
The grammar of casts and the operands that they are applied to. A bracketed group ends where the scan
of its brackets has nothing left to await; inside it everything else is passed over. The checks for
operands accept exactly what the grammar derives: `Argument.cast?_eq_some_iff`.
-/

namespace FormatLint

namespace Spelling

theorem solid_of_isWordPart {g : Glyph} (part : Head.isWordPart g = true) :
    g.isBlank = false ∧ g ≠ .char '*' := by
  cases g with
  | raw byte => cases part
  | char c =>
      have code : 36 ≤ c.toNat ∧ c.toNat ≤ 122 := by
        simp only [Head.isWordPart, Head.isLetter, Glyph.satisfies_char, Char.isAlpha, Char.isUpper,
          Char.isLower, Char.isDigit, Bool.or_eq_true, Bool.and_eq_true, beq_iff_eq,
          decide_eq_true_eq, UInt32.le_iff_toNat_le, Char.ext_iff, ← UInt32.toNat_inj] at part
        simp only [Char.reduceVal, UInt32.reduceToNat, Char.toNat_val] at part
        omega
      have apart : ∀ range ∈ blankRanges, range.last < 36 ∨ 122 < range.first := by decide
      refine ⟨Bool.eq_false_iff.2 fun blank => ?_, ?_⟩
      · obtain ⟨range, listed, low, high⟩ := CodeRange.anyContains_iff.1 blank
        have outside := apart range listed
        omega
      · rintro ⟨⟩
        exact absurd part (by decide)

theorem solid_of_ident {name rest : Text} (form : Head.Form .ident name rest) :
    ∀ g ∈ name, g.isBlank = false ∧ g ≠ .char '*' := by
  obtain ⟨g, more, rfl, start, parts, _⟩ := form.ident_cases
  have part := Head.isWordPart_of_isWordStart start
  exact List.forall_mem_cons.2 ⟨solid_of_isWordPart part,
    fun p inside => solid_of_isWordPart (parts p inside)⟩

theorem isWord_of_isTypeWord {file text : Text} {tokens : List Token} {t : Token}
    (read : Token.tokenize file text = .ok tokens) (member : t ∈ tokens)
    (word : Cast.isTypeWord t = true) :
    IsWord t.lexeme ∧ (t.lexeme ≠ star ↔ t.kind = .ident) := by
  simp only [Cast.isTypeWord, Bool.or_eq_true, decide_eq_true_eq, Token.isPunct, Bool.and_eq_true,
    List.mem_singleton] at word
  rcases word with named | ⟨punct, spelled⟩
  · rcases Token.tokenize_form read member with ⟨eof, _⟩ | form
    · simp [named] at eof
    · rw [named] at form
      have solid := solid_of_ident form
      refine ⟨.inr ⟨Lexeme.form_text_ne_nil form, solid⟩, fun _ => named, fun _ same => ?_⟩
      exact (solid (.char '*') (by simp [same, star])).2 rfl
  · exact ⟨.inl spelled, fun other => absurd spelled other, fun named => by simp [named] at punct⟩

end Spelling

namespace Cast

theorem awaited_append (stack : List Text) (front back : List Token) :
    awaited stack (front ++ back) = awaited (awaited stack front) back := by
  induction front generalizing stack with
  | nil => rfl
  | cons t front ih =>
      rw [List.cons_append, awaited_cons, awaited_cons]
      split
      · exact ih _
      · split
        · exact ih _
        · split
          · exact ih _
          · exact ih _

theorem awaited_step (stack : List Text) (t : Token) (rest : List Token) :
    awaited stack (t :: rest) = awaited (awaited stack [t]) rest := awaited_append stack [t] rest

/-- While a mark is awaited, every token counts as in the scan of brackets. -/
theorem isPostfix_awaited {stack : List Text} (awaiting : stack ≠ []) (t : Token) (rest : List Token) :
    isPostfix stack (t :: rest) = isPostfix (awaited stack [t]) rest := by
  obtain ⟨mark, outer, rfl⟩ := List.exists_cons_of_ne_nil awaiting
  rw [isPostfix_inside, awaited_cons]
  cases closer? t.lexeme with
  | some closer => rfl
  | none =>
      dsimp only
      split
      · rfl
      · rfl

/-- One token leaves the mark at the bottom of the stack alone, or takes it off as the last one. -/
theorem awaited_bottom (stack : List Text) (mark : Text) (t : Token) :
    (∃ stack', awaited (stack ++ [mark]) [t] = stack' ++ [mark]) ∨
      awaited (stack ++ [mark]) [t] = [] ∧ t.lexeme = mark := by
  rw [awaited_cons]
  cases closer? t.lexeme with
  | some closer => exact .inl ⟨closer :: stack, rfl⟩
  | none =>
      cases stack with
      | nil =>
          dsimp only [List.nil_append]
          split
          · rename_i same
            exact .inr ⟨rfl, same⟩
          · exact .inl ⟨[], rfl⟩
      | cons top stack =>
          dsimp only [List.cons_append]
          split
          · exact .inl ⟨stack, rfl⟩
          · exact .inl ⟨top :: stack, rfl⟩

/-- The tokens take everything off the stack, and the last one of them the last mark. -/
inductive Empties : List Text → List Token → Prop
  | nil : Empties [] []
  | cons {stack : List Text} {t : Token} {group : List Token} (awaiting : stack ≠ [])
      (later : Empties (awaited stack [t]) group) : Empties stack (t :: group)

theorem empties_iff {stack : List Text} {group : List Token} :
    Empties stack group ↔ awaited stack group = [] ∧
      ∀ front back, group = front ++ back → back ≠ [] → awaited stack front ≠ [] := by
  constructor
  · intro empties
    induction empties with
    | nil => exact ⟨rfl, fun front back same later => absurd (List.append_eq_nil_iff.1 same.symm).2 later⟩
    | @cons stack t group awaiting _ ih =>
        refine ⟨(awaited_step stack t group).trans ih.1, fun front back same later => ?_⟩
        cases front with
        | nil => exact awaiting
        | cons u front =>
            obtain ⟨rfl, inside⟩ : t = u ∧ group = front ++ back := List.cons.inj same
            rw [awaited_step]
            exact ih.2 front back inside later
  · rintro ⟨whole, shortest⟩
    induction group generalizing stack with
    | nil =>
        obtain rfl : stack = [] := whole
        exact .nil
    | cons t group ih =>
        rw [awaited_step] at whole
        refine .cons (shortest [] _ rfl (by simp)) (ih whole fun front back same later => ?_)
        have longer := shortest (t :: front) back (by rw [same]; rfl) later
        rwa [awaited_step] at longer

theorem Empties.last {stack : List Text} {mark : Text} {group : List Token}
    (empties : Empties (stack ++ [mark]) group) :
    ∃ inner closing, group = inner ++ [closing] ∧ closing.lexeme = mark := by
  induction group generalizing stack with
  | nil =>
      generalize stacked : stack ++ [mark] = whole at empties
      cases empties
      simp at stacked
  | cons t group ih =>
      have later : Empties (awaited (stack ++ [mark]) [t]) group := by
        generalize stack ++ [mark] = whole at empties
        cases empties with
        | cons _ later => exact later
      rcases awaited_bottom stack mark t with ⟨stack', after⟩ | ⟨after, closes⟩
      · rw [after] at later
        obtain ⟨inner, closing, rfl, closes⟩ := ih later
        exact ⟨t :: inner, closing, rfl, closes⟩
      · rw [after] at later
        cases later with
        | nil => exact ⟨[], t, rfl, closes⟩
        | cons awaiting => exact absurd rfl awaiting

/-- Behind the tokens with which nothing is awaited any more, the rest of the operand begins. -/
theorem isPostfix_iff_empties {stack : List Text} {tokens : List Token} :
    isPostfix stack tokens = true ↔ ∃ group rest, tokens = group ++ rest ∧ Empties stack group ∧
      isPostfix [] rest = true := by
  constructor
  · intro complete
    induction tokens generalizing stack with
    | nil =>
        cases stack with
        | nil => exact ⟨[], [], rfl, .nil, rfl⟩
        | cons mark outer => simp [isPostfix] at complete
    | cons t tokens ih =>
        by_cases awaiting : stack = []
        · subst awaiting
          exact ⟨[], _, rfl, .nil, complete⟩
        · rw [isPostfix_awaited awaiting] at complete
          obtain ⟨group, rest, rfl, empties, behind⟩ := ih complete
          exact ⟨t :: group, rest, rfl, .cons awaiting empties, behind⟩
  · rintro ⟨group, rest, rfl, empties, behind⟩
    induction empties with
    | nil => exact behind
    | cons awaiting _ ih =>
        rw [List.cons_append, isPostfix_awaited awaiting]
        exact ih

/-- Nothing is awaited behind the group, and something is behind every shorter beginning. -/
structure Closed (group : List Token) : Prop where
  whole : awaited [] group = []
  shortest : ∀ front back, group = front ++ back → front ≠ [] → back ≠ [] → awaited [] front ≠ []

inductive Round : List Token → Prop
  | mk {opening closing : Token} {inner : List Token} (opens : opening.kind = .openParen)
      (closes : closing.kind = .closeParen) (closed : Closed (opening :: (inner ++ [closing]))) :
      Round (opening :: (inner ++ [closing]))

inductive Square : List Token → Prop
  | mk {opening closing : Token} {inner : List Token} (opens : opening.isPunct ["["] = true)
      (closes : closing.isPunct ["]"] = true) (closed : Closed (opening :: (inner ++ [closing]))) :
      Square (opening :: (inner ++ [closing]))

theorem closed_iff {opening : Token} {group : List Token} {mark : Text}
    (opens : closer? opening.lexeme = some mark) :
    Closed (opening :: group) ↔ Empties [mark] group := by
  have step (tokens : List Token) : awaited [] (opening :: tokens) = awaited [mark] tokens := by
    rw [awaited_cons, opens]
  rw [empties_iff]
  constructor
  · rintro ⟨whole, shortest⟩
    rw [step] at whole
    refine ⟨whole, fun front back same later => ?_⟩
    rw [← step]
    exact shortest (opening :: front) back (by rw [same]; rfl) (List.cons_ne_nil _ _) later
  · rintro ⟨whole, shortest⟩
    refine ⟨(step _).trans whole, fun front back same nonempty later => ?_⟩
    obtain ⟨u, front, rfl⟩ := List.exists_cons_of_ne_nil nonempty
    obtain ⟨rfl, inside⟩ : opening = u ∧ group = front ++ back := List.cons.inj same
    rw [step]
    exact shortest front back inside later

/-- Behind an opening bracket the rest of a group is read, and then the rest of the operand. -/
theorem isPostfix_group {opening : Token} {mark : Text} (opens : closer? opening.lexeme = some mark)
    (tokens : List Token) :
    isPostfix [mark] tokens = true ↔ ∃ inner closing rest, tokens = inner ++ closing :: rest ∧
      closing.lexeme = mark ∧ Closed (opening :: (inner ++ [closing])) ∧
      isPostfix [] rest = true := by
  rw [isPostfix_iff_empties]
  simp only [closed_iff opens]
  constructor
  · rintro ⟨group, rest, rfl, empties, behind⟩
    obtain ⟨inner, closing, rfl, closes⟩ := @Empties.last [] _ _ empties
    exact ⟨inner, closing, rest, by simp, closes, empties, behind⟩
  · rintro ⟨inner, closing, rest, rfl, _, empties, behind⟩
    exact ⟨inner ++ [closing], rest, by simp, empties, behind⟩

/-- What can stand behind an operand: a call, a subscript, a member access, an increment. -/
inductive Suffix : List Token → Prop
  | call {group : List Token} (round : Round group) : Suffix group
  | subscript {group : List Token} (square : Square group) : Suffix group
  | member {mark name : Token} (access : mark.isPunct [".", "->"] = true)
      (named : name.kind = .ident) : Suffix [mark, name]
  | step {mark : Token} (steps : mark.isPunct ["++", "--"] = true) : Suffix [mark]

inductive Suffixes : List Token → Prop
  | nil : Suffixes []
  | append {suffix later : List Token} (first : Suffix suffix) (rest : Suffixes later) :
      Suffixes (suffix ++ later)

/-- An operand without operators in front of it. -/
inductive Primary : List Token → Prop
  | strings {first : Token} {more : List Token} (string : first.kind = .string)
      (strings : ∀ t ∈ more, t.kind = .string) : Primary (first :: more)
  | constant {t : Token} (constant : t.kind = .other ∨ t.kind = .char) : Primary [t]
  | name {t : Token} {suffixes : List Token} (named : t.kind = .ident)
      (behind : Suffixes suffixes) : Primary (t :: suffixes)
  | enclosed {group suffixes : List Token} (round : Round group) (behind : Suffixes suffixes) :
      Primary (group ++ suffixes)

/-- A primary behind any number of unary operators. -/
inductive Operand : List Token → Prop
  | primary {tokens : List Token} (primary : Primary tokens) : Operand tokens
  | unary {mark : Token} {tokens : List Token} (operator : mark.isPunct unaryOperators = true)
      (operand : Operand tokens) : Operand (mark :: tokens)

/-- Brackets are known by their kinds and by their spellings alike. -/
structure Paired (t : Token) : Prop where
  opening : t.kind = .openParen → t.lexeme = Text.ofString "("
  closing : t.kind = .closeParen ↔ t.lexeme = Text.ofString ")"
  square : t.lexeme = Text.ofString "]" → t.kind = .punct

theorem paired_of_tokenize {file text : Text} {tokens : List Token}
    (read : Token.tokenize file text = .ok tokens) : ∀ t ∈ tokens, Paired t := by
  intro t member
  rcases Token.tokenize_form read member with ⟨eof, empty⟩ | form
  · exact ⟨by simp [eof], by simp [eof, empty, Text.ofString], by simp [empty, Text.ofString]⟩
  · obtain ⟨opening, closing, _⟩ := form.delimiter
    refine ⟨opening, ⟨closing, fun round => ?_⟩, fun square => ?_⟩
    · exact (form.bracket (g := .char ')') (by decide) round).trans (by decide)
    · exact (form.bracket (g := .char ']') (by decide) square).trans (by decide)

theorem isPunct_iff {t : Token} {spellings : List Text} :
    t.isPunct spellings = true ↔ t.kind = .punct ∧ t.lexeme ∈ spellings := by
  simp [Token.isPunct]

theorem Paired.closer {t : Token} (paired : Paired t) (opens : t.kind = .openParen) :
    closer? t.lexeme = some (Text.ofString ")") := by
  rw [paired.opening opens]
  rfl

theorem closer?_square {t : Token} (opens : t.isPunct ["["] = true) :
    closer? t.lexeme = some (Text.ofString "]") := by
  obtain ⟨_, spelled⟩ := isPunct_iff.1 opens
  rw [List.mem_singleton.1 spelled]
  rfl

theorem isPunct_disjoint {t : Token} {spellings others : List Text}
    (punct : t.isPunct spellings = true) (disjoint : ∀ spelling ∈ spellings, spelling ∉ others) :
    ¬ t.isPunct others = true := fun other =>
  disjoint _ (isPunct_iff.1 punct).2 (isPunct_iff.1 other).2

theorem Round.isPostfix {group later : List Token} (round : Round group)
    (paired : ∀ t ∈ group, Paired t) (complete : Cast.isPostfix [] later = true) :
    ∃ opening inner, group = opening :: inner ∧ opening.kind = .openParen ∧
      Cast.isPostfix [Text.ofString ")"] (inner ++ later) = true := by
  obtain @⟨opening, closing, inner, opens, closes, closed⟩ := round
  have closer := (paired opening List.mem_cons_self).closer opens
  have spelled := (paired closing (by simp)).closing.1 closes
  refine ⟨opening, inner ++ [closing], rfl, opens, ?_⟩
  rw [List.append_assoc]
  exact (isPostfix_group closer _).2 ⟨inner, closing, later, rfl, spelled, closed, complete⟩

theorem Suffix.isPostfix {suffix later : List Token} (first : Suffix suffix)
    (paired : ∀ t ∈ suffix, Paired t) (complete : Cast.isPostfix [] later = true) :
    Cast.isPostfix [] (suffix ++ later) = true := by
  have noParen {t : Token} {spellings : List Text} (punct : t.isPunct spellings = true) :
      t.kind ≠ .openParen := by simp [(isPunct_iff.1 punct).1]
  cases first with
  | call round =>
      obtain ⟨opening, inner, rfl, opens, inside⟩ := round.isPostfix paired complete
      rw [List.cons_append, isPostfix_behind, if_pos opens]
      exact inside
  | subscript square =>
      obtain @⟨opening, closing, inner, opens, closes, closed⟩ := square
      have spelled := List.mem_singleton.1 (isPunct_iff.1 closes).2
      rw [List.cons_append, isPostfix_behind, if_neg (noParen opens), if_pos opens,
        List.append_assoc]
      exact (isPostfix_group (closer?_square opens) _).2
        ⟨inner, closing, later, rfl, spelled, closed, complete⟩
  | @member mark name access named =>
      rw [List.cons_append, isPostfix_behind, if_neg (noParen access),
        if_neg (isPunct_disjoint access (by decide)), if_neg (isPunct_disjoint access (by decide)),
        if_pos access]
      simp [named, complete]
  | @step mark steps =>
      rw [List.cons_append, isPostfix_behind, if_neg (noParen steps),
        if_neg (isPunct_disjoint steps (by decide)), if_pos steps]
      exact complete

theorem isOperand_unary {mark : Token} (operator : mark.isPunct unaryOperators = true)
    (tokens : List Token) : isOperand (mark :: tokens) = isOperand tokens := by
  simp [isOperand, operator]

theorem Primary.noOperator {tokens : List Token} (primary : Primary tokens) :
    tokens.dropWhile (·.isPunct unaryOperators) = tokens := by
  have other {t : Token} {rest : List Token} (kind : t.kind ≠ .punct) :
      (t :: rest).dropWhile (·.isPunct unaryOperators) = t :: rest :=
    List.dropWhile_cons_of_neg fun operator => kind (isPunct_iff.1 operator).1
  cases primary with
  | strings string => exact other (by simp [string])
  | constant constant => exact other (by rcases constant with kind | kind <;> simp [kind])
  | name named => exact other (by simp [named])
  | enclosed round =>
      obtain ⟨opens, _, _⟩ := round
      exact other (by simp [opens])

theorem Suffixes.isPostfix {tokens : List Token} (suffixes : Suffixes tokens)
    (paired : ∀ t ∈ tokens, Paired t) : Cast.isPostfix [] tokens = true := by
  induction suffixes with
  | nil => rfl
  | append first rest ih =>
      obtain ⟨here, behind⟩ := List.forall_mem_append.1 paired
      exact first.isPostfix here (ih behind)

section Paired

variable {tokens : List Token} (paired : ∀ t ∈ tokens, Paired t)
include paired

theorem isPostfix_iff_suffixes : isPostfix [] tokens = true ↔ Suffixes tokens := by
  refine ⟨fun complete => ?_, fun suffixes => suffixes.isPostfix paired⟩
  -- A suffix can be of any length, so what is left of the tokens is known to be shorter and no more.
  generalize size : tokens.length = n
  induction n using Nat.strongRecOn generalizing tokens with
  | ind n ih =>
      cases tokens with
      | nil => exact .nil
      | cons t rest =>
          obtain ⟨here, behind⟩ := List.forall_mem_cons.1 paired
          rw [List.length_cons] at size
          have grouped {mark : Text} (opens : closer? t.lexeme = some mark)
              (inside : isPostfix [mark] rest = true) :
              ∃ inner closing later, rest = inner ++ closing :: later ∧ closing.lexeme = mark ∧
                Closed (t :: (inner ++ [closing])) ∧ Suffixes later := by
            obtain ⟨inner, closing, later, rfl, closes, closed, complete⟩ :=
              (isPostfix_group opens rest).1 inside
            rw [List.length_append, List.length_cons] at size
            exact ⟨inner, closing, later, rfl, closes, closed, ih later.length (by omega)
              (fun u member => behind u (by simp [member])) complete rfl⟩
          rw [isPostfix_behind] at complete
          split at complete
          · rename_i opens
            obtain ⟨inner, closing, later, rfl, spelled, closed, rest⟩ :=
              grouped (here.closer opens) complete
            have closes := (behind closing (by simp)).closing.2 spelled
            simpa using Suffixes.append (.call (.mk opens closes closed)) rest
          · split at complete
            · rename_i opens
              obtain ⟨inner, closing, later, rfl, spelled, closed, rest⟩ :=
                grouped (closer?_square opens) complete
              have closes : closing.isPunct ["]"] = true :=
                isPunct_iff.2 ⟨(behind closing (by simp)).square spelled, by simp [spelled]⟩
              simpa using Suffixes.append (.subscript (.mk opens closes closed)) rest
            · split at complete
              · rename_i steps
                exact .append (.step steps) (ih rest.length (by omega) behind complete rfl)
              · split at complete
                · rename_i access
                  cases rest with
                  | nil => cases complete
                  | cons member later =>
                      simp only [Bool.and_eq_true, decide_eq_true_eq] at complete
                      obtain ⟨named, complete⟩ := complete
                      rw [List.length_cons] at size
                      exact .append (.member access named) (ih later.length (by omega)
                        (List.forall_mem_cons.1 behind).2 complete rfl)
                · cases complete

theorem isPrimary_iff_primary : isPrimary tokens = true ↔ Primary tokens := by
  constructor
  · intro whole
    cases tokens with
    | nil => cases whole
    | cons t rest =>
        obtain ⟨here, behind⟩ := List.forall_mem_cons.1 paired
        rw [isPrimary] at whole
        split at whole
        · rename_i string
          exact .strings string (by simpa using whole)
        · rename_i other
          rw [List.isEmpty_iff.1 whole]
          exact .constant (.inl other)
        · rename_i char
          rw [List.isEmpty_iff.1 whole]
          exact .constant (.inr char)
        · rename_i named
          exact .name named ((isPostfix_iff_suffixes behind).1 whole)
        · rename_i opens
          obtain ⟨inner, closing, later, rfl, spelled, closed, complete⟩ :=
            (isPostfix_group (here.closer opens) rest).1 whole
          have closes := (behind closing (by simp)).closing.2 spelled
          have suffixes := (isPostfix_iff_suffixes fun u member => behind u (by simp [member])).1
            complete
          simpa using Primary.enclosed (.mk opens closes closed) suffixes
        · cases whole
  · intro primary
    cases primary with
    | strings string strings => simpa [isPrimary, string] using strings
    | constant constant => rcases constant with other | char <;> simp [isPrimary, *]
    | name named behind =>
        have later := (isPostfix_iff_suffixes (List.forall_mem_cons.1 paired).2).2 behind
        simpa [isPrimary, named] using later
    | enclosed round behind =>
        obtain ⟨here, later⟩ := List.forall_mem_append.1 paired
        obtain ⟨opening, inner, rfl, opens, inside⟩ :=
          round.isPostfix here ((isPostfix_iff_suffixes later).2 behind)
        simpa [isPrimary, opens] using inside

theorem isOperand_iff_operand : isOperand tokens = true ↔ Operand tokens := by
  constructor
  · intro whole
    induction tokens with
    | nil => cases whole
    | cons t rest ih =>
        cases operator : t.isPunct unaryOperators with
        | true =>
            rw [isOperand_unary operator] at whole
            exact .unary operator (ih (List.forall_mem_cons.1 paired).2 whole)
        | false =>
            rw [isOperand, List.dropWhile_cons_of_neg (by simp [operator])] at whole
            exact .primary ((isPrimary_iff_primary paired).1 whole)
  · intro operand
    induction operand with
    | @primary tokens primary =>
        rw [isOperand, primary.noOperator]
        exact (isPrimary_iff_primary paired).2 primary
    | unary operator _ ih =>
        rw [isOperand_unary operator]
        exact ih (List.forall_mem_cons.1 paired).2

end Paired

/-- A type in parentheses and the operand that it is applied to. At least one name of the type is no
qualifier. -/
structure Applied (opening : Token) (type : List Token) (closing : Token)
    (operand : List Token) : Prop where
  opens : opening.kind = .openParen
  begins : type.head?.any (·.kind = .ident) = true
  words : ∀ t ∈ type, t.kind = .ident ∨ t.isPunct ["*"] = true
  relevant : ∃ t ∈ type, t.kind = .ident ∧ t.lexeme ∉ Spelling.qualifiers
  closes : closing.kind = .closeParen
  operand : Operand operand

/-- A token that can stand in a type is spelled like a word, and is a name if it is no asterisk. -/
def Typed (t : Token) : Prop := isTypeWord t = true →
  Spelling.IsWord t.lexeme ∧ (t.lexeme ≠ Spelling.star ↔ t.kind = .ident)

theorem isTypeWord_iff {t : Token} :
    isTypeWord t = true ↔ t.kind = .ident ∨ t.isPunct ["*"] = true := by
  simp [isTypeWord]

section Applied

variable {opening closing : Token} {type operand : List Token}
  (typed : ∀ t ∈ type, Typed t) (words : ∀ t ∈ type, isTypeWord t = true)
include typed words

theorem isWord_of_typed : ∀ word ∈ type.map (·.lexeme), Spelling.IsWord word := by
  intro word member
  obtain ⟨t, listed, rfl⟩ := List.mem_map.1 member
  exact (typed t listed (words t listed)).1

theorem normalize_type : Spelling.normalize (Text.joinWith [.char ' '] (type.map (·.lexeme))) =
    Spelling.ofWords (type.map (·.lexeme)) := by
  rw [Spelling.normalize, Spelling.words_joinWith (isWord_of_typed typed words)]

theorem relevant_iff :
    (Spelling.ofWords (type.map (·.lexeme))).head?.any (· ≠ .char '*') = true ↔
      ∃ t ∈ type, t.kind = .ident ∧ t.lexeme ∉ Spelling.qualifiers := by
  rw [Spelling.head_ofWords (isWord_of_typed typed words)]
  constructor
  · rintro ⟨_, member, noStar, relevant⟩
    obtain ⟨t, listed, rfl⟩ := List.mem_map.1 member
    exact ⟨t, listed, (typed t listed (words t listed)).2.1 noStar, relevant⟩
  · rintro ⟨t, listed, named, relevant⟩
    exact ⟨t.lexeme, List.mem_map_of_mem listed, (typed t listed (words t listed)).2.2 named,
      relevant⟩

/-- The checks for a cast are those of the grammar. -/
theorem checked_iff_applied (paired : ∀ t ∈ operand, Paired t) :
    Checked opening type closing operand ↔ Applied opening type closing operand := by
  constructor
  · intro checked
    exact ⟨checked.opens, checked.begins, fun t member => isTypeWord_iff.1 (words t member),
      (relevant_iff typed words).1 checked.spelled, checked.closes,
      (isOperand_iff_operand paired).1 checked.whole⟩
  · intro applied
    exact ⟨applied.opens, words, applied.begins, applied.closes,
      (isOperand_iff_operand paired).2 applied.operand,
      (relevant_iff typed words).2 applied.relevant⟩

end Applied

end Cast

/-- An argument of lexed tokens has a cast exactly if it is one that the grammar derives. -/
theorem Argument.cast?_eq_some_iff {a : Argument} {c : Cast}
    (lexed : ∀ t ∈ a.tokens, ∃ file text tokens,
      Token.tokenize file text = .ok tokens ∧ t ∈ tokens) :
    a.cast? = some c ↔ ∃ opening type closing operand,
      a.code = opening :: (type ++ closing :: operand) ∧
        Cast.Applied opening type closing operand ∧
        c.spelling = Spelling.normalize (Text.joinWith [.char ' '] (type.map (·.lexeme))) ∧
        c.family = Spelling.vocabulary.lookup c.spelling ∧
        c.span = opening.span.through closing.span := by
  have paired (t : Token) (member : t ∈ a.code) : Cast.Paired t := by
    obtain ⟨_, _, _, read, listed⟩ := lexed t (List.mem_of_mem_filter member)
    exact Cast.paired_of_tokenize read t listed
  have typed (t : Token) (member : t ∈ a.code) : Cast.Typed t := by
    obtain ⟨_, _, _, read, listed⟩ := lexed t (List.mem_of_mem_filter member)
    exact Spelling.isWord_of_isTypeWord read listed
  have parts {opening closing : Token} {type operand : List Token}
      (code : a.code = opening :: (type ++ closing :: operand)) :
      (∀ t ∈ type, Cast.Typed t) ∧ ∀ t ∈ operand, Cast.Paired t :=
    ⟨fun t member => typed t (by simp [code, member]),
      fun t member => paired t (by simp [code, member])⟩
  rw [cast?_inversion]
  constructor
  · rintro ⟨opening, type, closing, operand, code, checked, rfl⟩
    obtain ⟨here, behind⟩ := parts code
    exact ⟨opening, type, closing, operand, code,
      (Cast.checked_iff_applied here checked.words behind).1 checked,
      (Cast.normalize_type here checked.words).symm, rfl, rfl⟩
  · rintro ⟨opening, type, closing, operand, code, applied, spelling, family, span⟩
    obtain ⟨here, behind⟩ := parts code
    have words : ∀ t ∈ type, Cast.isTypeWord t = true :=
      fun t member => Cast.isTypeWord_iff.2 (applied.words t member)
    rw [Cast.normalize_type here words] at spelling
    refine ⟨opening, type, closing, operand, code,
      (Cast.checked_iff_applied here words behind).2 applied, ?_⟩
    rw [← spelling, Spelling.family?, ← family, ← span]

/-- A cast in front of operators, a call, a subscript, member accesses and an increment. -/
def castOperand : List Lexeme :=
  [⟨[], .openParen, "("⟩, ⟨[], .ident, "const"⟩, ⟨[.char ' '], .ident, "char"⟩,
    ⟨[], .comment, "/* c */"⟩, ⟨[], .punct, "*"⟩, ⟨[], .closeParen, ")"⟩, ⟨[], .punct, "-"⟩,
    ⟨[], .punct, "*"⟩, ⟨[], .ident, "f"⟩, ⟨[], .openParen, "("⟩, ⟨[], .ident, "x"⟩,
    ⟨[], .punct, "["⟩, ⟨[], .other, "1"⟩, ⟨[], .punct, "]"⟩, ⟨[], .closeParen, ")"⟩,
    ⟨[], .punct, "["⟩, ⟨[], .punct, "]"⟩, ⟨[], .punct, "."⟩, ⟨[], .ident, "b"⟩,
    ⟨[], .punct, "->"⟩, ⟨[], .ident, "c"⟩, ⟨[], .punct, "++"⟩]

theorem Argument.cast?_eq_some_iff_castOperand :
    ∃ (a : Argument) (c : Cast),
      (∀ t ∈ a.tokens, ∃ file text tokens,
        Token.tokenize file text = .ok tokens ∧ t ∈ tokens) ∧
      a.tokens.map (·.lexeme) = castOperand.map (·.text) ∧
      a.cast? = some c ∧ c.spelling = "char*" ∧ c.family = some .string ∧
      ∃ opening type closing operand, a.code = opening :: (type ++ closing :: operand) ∧
        Cast.Applied opening type closing operand ∧
        c.spelling = Spelling.normalize (Text.joinWith [.char ' '] (type.map (·.lexeme))) ∧
        c.family = Spelling.vocabulary.lookup c.spelling ∧
        c.span = opening.span.through closing.span := by
  have chain : Lexeme.Chain castOperand [] := by
    repeat' first
      | exact .nil
      | refine .cons (by decide) (by decide) (Head.read_iff_form.1 rfl) ?_
  have read := Lexeme.tokenize_words chain []
  have lexed : ∀ t ∈ Token.place [] .first castOperand, ∃ file text tokens,
      Token.tokenize file text = .ok tokens ∧ t ∈ tokens := by
    intro t member
    exact ⟨[], _, _, read, by rw [Token.place_append]; exact List.mem_append_left _ member⟩
  let a : Argument := ⟨Token.place [] .first castOperand, by decide⟩
  have found : a.cast? = some ⟨"char*", some .string, ⟨[], ⟨0, 1, 1⟩, ⟨20, 1, 21⟩⟩⟩ := by
    cbv
  exact ⟨a, _, lexed, rfl, found, rfl, rfl, (cast?_eq_some_iff lexed).1 found⟩

end FormatLint
