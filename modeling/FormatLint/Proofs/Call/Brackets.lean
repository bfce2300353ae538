import FormatLint.Proofs.Call.Placement

/-!
Brackets in argument lists. `Token.Balanced` says that the brackets of some kinds are properly
nested. Commas are told apart by parentheses alone, so arguments are always properly nested as far as
parentheses are concerned; `Call.arguments_balanced` says when they are so in all brackets.
-/

namespace FormatLint

inductive Bracket where
  | round
  | square
  | curly
  deriving DecidableEq

def Bracket.all : List Bracket := [.round, .square, .curly]

theorem Bracket.mem_all (b : Bracket) : b ∈ all := by cases b <;> decide

inductive Turn where
  | opens (b : Bracket)
  | closes (b : Bracket)
  | keeps
  deriving DecidableEq

/-- Brackets of other kinds do not count. -/
def Turn.among (kinds : List Bracket) : Turn → Turn
  | .opens b => if b ∈ kinds then .opens b else .keeps
  | .closes b => if b ∈ kinds then .closes b else .keeps
  | .keeps => .keeps

@[simp] theorem Turn.among_all (turn : Turn) : turn.among Bracket.all = turn := by
  cases turn <;> simp [among, Bracket.mem_all]

namespace Token

def turn (t : Token) : Turn :=
  if t.kind = .openParen then .opens .round
  else if t.kind = .closeParen then .closes .round
  else if t.isPunct ["["] then .opens .square
  else if t.isPunct ["]"] then .closes .square
  else if t.isPunct ["\x7b"] then .opens .curly
  else if t.isPunct ["\x7d"] then .closes .curly
  else .keeps

/-- Every bracket of the given kinds is closed by one of its own kind, innermost first. -/
inductive Balanced (kinds : List Bracket) : List Token → Prop
  | nil : Balanced kinds []
  | plain {t : Token} {rest : List Token} (keeps : t.turn.among kinds = .keeps)
      (later : Balanced kinds rest) : Balanced kinds (t :: rest)
  | group {opening closing : Token} {inner rest : List Token} {b : Bracket}
      (opens : opening.turn.among kinds = .opens b) (closes : closing.turn.among kinds = .closes b)
      (inside : Balanced kinds inner) (later : Balanced kinds rest) :
      Balanced kinds (opening :: (inner ++ closing :: rest))

/-- The brackets that are open behind the tokens if those in the list are open before them. -/
def stillOpen? (kinds : List Bracket) : List Bracket → List Token → Option (List Bracket)
  | stack, [] => some stack
  | stack, t :: rest =>
    match t.turn.among kinds with
    | .keeps => stillOpen? kinds stack rest
    | .opens b => stillOpen? kinds (b :: stack) rest
    | .closes b =>
      match stack with
      | [] => none
      | top :: outer => if top = b then stillOpen? kinds outer rest else none

variable {kinds : List Bracket}

theorem stillOpen?_cons (kinds stack : List Bracket) (t : Token) (rest : List Token) :
    stillOpen? kinds stack (t :: rest) =
      match t.turn.among kinds with
      | .keeps => stillOpen? kinds stack rest
      | .opens b => stillOpen? kinds (b :: stack) rest
      | .closes b =>
        match stack with
        | [] => none
        | top :: outer => if top = b then stillOpen? kinds outer rest else none := by
  rw [stillOpen?]

theorem stillOpen?_append (stack : List Bracket) (front back : List Token) :
    stillOpen? kinds stack (front ++ back) =
      (stillOpen? kinds stack front).bind fun opened => stillOpen? kinds opened back := by
  induction front generalizing stack with
  | nil => rfl
  | cons t rest ih =>
      rw [List.cons_append, stillOpen?_cons, stillOpen?_cons]
      cases t.turn.among kinds with
      | keeps => exact ih stack
      | opens b => exact ih (b :: stack)
      | closes b =>
          cases stack with
          | nil => rfl
          | cons top outer =>
              dsimp only
              split
              · exact ih outer
              · rfl

namespace Balanced

variable {front back tokens : List Token}

theorem append (first : Balanced kinds front) (second : Balanced kinds back) :
    Balanced kinds (front ++ back) := by
  induction first with
  | nil => exact second
  | plain keeps _ ih => exact .plain keeps ih
  | @group opening closing inner rest b opens closes inside _ _ ih =>
      have whole : opening :: (inner ++ closing :: rest) ++ back =
          opening :: (inner ++ closing :: (rest ++ back)) := by simp
      rw [whole]
      exact .group opens closes inside ih

/-- Behind balanced tokens the same brackets are open. -/
theorem stillOpen? (balanced : Balanced kinds tokens) (stack : List Bracket) :
    Token.stillOpen? kinds stack tokens = some stack := by
  induction balanced generalizing stack with
  | nil => rfl
  | plain keeps _ ih =>
      rw [stillOpen?_cons, keeps]
      exact ih stack
  | @group opening closing inner rest b opens closes _ _ ihInner ihLater =>
      rw [stillOpen?_cons, opens]
      dsimp only
      rw [stillOpen?_append, ihInner, Option.bind_some, stillOpen?_cons, closes]
      dsimp only
      rw [if_pos rfl, ihLater]

end Balanced

/-- Balanced tokens, with closing brackets between them for those that are open. -/
def BalancedUpTo (kinds : List Bracket) : List Bracket → List Token → Prop
  | [], tokens => Balanced kinds tokens
  | top :: outer, tokens => ∃ inner closing rest, tokens = inner ++ closing :: rest ∧
      Balanced kinds inner ∧ closing.turn.among kinds = .closes top ∧
      BalancedUpTo kinds outer rest

theorem Balanced.upTo {front back : List Token} (balanced : Balanced kinds front)
    {stack : List Bracket} (rest : BalancedUpTo kinds stack back) :
    BalancedUpTo kinds stack (front ++ back) := by
  cases stack with
  | nil => exact balanced.append rest
  | cons top outer =>
      obtain ⟨inner, closing, later, rfl, inside, closes, rest⟩ := rest
      exact ⟨front ++ inner, closing, later, by simp, balanced.append inside, closes, rest⟩

theorem balancedUpTo_of_stillOpen? {stack : List Bracket} {tokens : List Token}
    (closed : stillOpen? kinds stack tokens = some []) : BalancedUpTo kinds stack tokens := by
  induction tokens generalizing stack with
  | nil =>
      obtain rfl : stack = [] := Option.some.inj closed
      exact .nil
  | cons t rest ih =>
      rw [stillOpen?_cons] at closed
      split at closed
      · rename_i keeps
        exact (Balanced.plain keeps .nil).upTo (ih closed)
      · rename_i b opens
        obtain ⟨inner, closing, later, rfl, inside, closes, outer⟩ := ih closed
        have group : Balanced kinds (t :: (inner ++ [closing])) := .group opens closes inside .nil
        have whole := group.upTo outer
        simpa using whole
      · rename_i b closes
        split at closed
        · cases closed
        · rename_i top outer
          split at closed
          · rename_i same
            exact ⟨[], t, rest, rfl, .nil, closes.trans (congrArg Turn.closes same.symm), ih closed⟩
          · cases closed

theorem balanced_iff {tokens : List Token} :
    Balanced kinds tokens ↔ stillOpen? kinds [] tokens = some [] :=
  ⟨fun balanced => balanced.stillOpen? [], balancedUpTo_of_stillOpen?⟩

instance (kinds : List Bracket) (tokens : List Token) : Decidable (Balanced kinds tokens) :=
  decidable_of_iff _ balanced_iff.symm

/-- Behind balanced tokens the rest has to be balanced by itself. -/
theorem Balanced.append_iff {front back : List Token} (balanced : Balanced kinds front) :
    Balanced kinds (front ++ back) ↔ Balanced kinds back := by
  rw [balanced_iff, stillOpen?_append, balanced.stillOpen?, Option.bind_some, balanced_iff]

theorem balanced_cons_iff {t : Token} {rest : List Token} (keeps : t.turn.among kinds = .keeps) :
    Balanced kinds (t :: rest) ↔ Balanced kinds rest := by
  rw [balanced_iff, stillOpen?_cons, keeps, balanced_iff]

theorem turn_of_kind {t : Token} (opens : t.kind ≠ .openParen) (closes : t.kind ≠ .closeParen)
    (other : t.kind ≠ .punct) : t.turn = .keeps := by
  simp [turn, isPunct, opens, closes, other]

theorem balanced_code {tokens : List Token} :
    Balanced kinds (code tokens) ↔ Balanced kinds tokens := by
  have same (stack : List Bracket) :
      stillOpen? kinds stack (code tokens) = stillOpen? kinds stack tokens := by
    induction tokens generalizing stack with
    | nil => rfl
    | cons t rest ih =>
        cases comment : t.isComment with
        | true =>
            have keeps : t.turn.among kinds = .keeps := by
              rw [turn_of_kind] <;> simp_all [isComment, Turn.among]
            have dropped : code (t :: rest) = code rest := by simp [code, comment]
            rw [dropped, ih, stillOpen?_cons, keeps]
        | false =>
            have kept : code (t :: rest) = t :: code rest := by simp [code, comment]
            rw [kept, stillOpen?_cons, stillOpen?_cons]
            cases t.turn.among kinds with
            | keeps => exact ih stack
            | opens b => exact ih (b :: stack)
            | closes b => cases stack <;> simp only [ih]
  rw [balanced_iff, balanced_iff, same]

theorem turn_round (t : Token) : t.turn.among [.round] =
    match t.kind with
    | .openParen => .opens .round
    | .closeParen => .closes .round
    | _ => .keeps := by
  rw [turn]
  cases kind : t.kind <;>
    simp only [isPunct, kind, apply_ite (Turn.among [.round])] <;> simp [Turn.among]

/-- As many parentheses are open behind tokens as their depth says. -/
theorem length_stillOpen? {stack opened : List Bracket} {tokens : List Token}
    (found : stillOpen? [.round] stack tokens = some opened) :
    (opened.length : Int) = stack.length + depth tokens := by
  induction tokens generalizing stack with
  | nil =>
      obtain rfl : stack = opened := Option.some.inj found
      simp
  | cons t rest ih =>
      rw [stillOpen?_cons, turn_round] at found
      rw [depth_cons, rise]
      cases kind : t.kind <;> simp only [kind] at found ⊢
      case openParen =>
        have length := ih found
        rw [List.length_cons] at length
        omega
      case closeParen =>
        cases stack with
        | nil => cases found
        | cons top outer =>
            dsimp only at found
            split at found
            · have length := ih found
              rw [List.length_cons]
              omega
            · cases found
      all_goals
        have length := ih found
        omega

theorem Balanced.depth {tokens : List Token} (balanced : Balanced [.round] tokens) :
    Token.depth tokens = 0 := by
  have length := length_stillOpen? (balanced.stillOpen? [])
  simpa using length.symm

/-- A parenthesis that is closed as far as parentheses are concerned encloses balanced tokens, if the
brackets around it are properly nested. -/
theorem stillOpen?_round {stack outer rounds opened : List Bracket} {tokens : List Token}
    (round : stillOpen? [.round] (stack.filter (· = .round)) tokens = some rounds)
    (found : stillOpen? Bracket.all (stack ++ .round :: outer) tokens = some opened) :
    ∃ inside, opened = inside ++ .round :: outer ∧ stillOpen? Bracket.all stack tokens = some inside ∧
      inside.filter (· = .round) = rounds := by
  induction tokens generalizing stack with
  | nil => exact ⟨stack, (Option.some.inj found).symm, rfl, Option.some.inj round⟩
  | cons t rest ih =>
      rw [stillOpen?_cons, Turn.among_all] at found ⊢
      rw [stillOpen?_cons] at round
      cases turn : t.turn with
      | keeps =>
          simp only [turn, Turn.among] at found round ⊢
          exact ih round found
      | opens b =>
          simp only [turn, Turn.among] at found round ⊢
          refine @ih (b :: stack) ?_ found
          cases b <;> simpa using round
      | closes b =>
          simp only [turn, Turn.among] at found round ⊢
          cases stack with
          | nil =>
              -- only the parenthesis itself could be closed here, but that is not
              simp only [List.nil_append] at found
              split at found
              · rename_i same
                subst same
                simp at round
              · cases found
          | cons top inner =>
              simp only [List.cons_append] at found
              split at found
              · rename_i same
                subst same
                dsimp only
                rw [if_pos rfl]
                refine ih ?_ found
                cases top <;> simpa using round
              · cases found

theorem Balanced.inside {front inner back : List Token} {opening closing : Token}
    (opens : opening.kind = .openParen) (closes : closing.kind = .closeParen)
    (whole : Balanced Bracket.all (front ++ opening :: (inner ++ closing :: back)))
    (round : Balanced [.round] inner) : Balanced Bracket.all inner := by
  have opened : opening.turn = .opens .round := by simp [turn, opens]
  have closed : closing.turn = .closes .round := by simp [turn, closes]
  rw [balanced_iff, stillOpen?_append] at whole
  obtain ⟨outer, _, whole⟩ := Option.bind_eq_some_iff.1 whole
  rw [stillOpen?_cons, Turn.among_all, opened] at whole
  dsimp only at whole
  rw [stillOpen?_append] at whole
  obtain ⟨stack, found, whole⟩ := Option.bind_eq_some_iff.1 whole
  obtain ⟨inside, rfl, alone, rounds⟩ :=
    @stillOpen?_round [] outer _ _ _ (round.stillOpen? []) found
  rw [stillOpen?_cons, Turn.among_all, closed] at whole
  -- what is open on top is closed by a parenthesis, so it is one; but none is open inside
  cases inside with
  | nil => exact balanced_iff.2 alone
  | cons top rest =>
      simp only [List.cons_append] at whole
      split at whole
      · rename_i same
        subst same
        simp at rounds
      · cases whole

end Token

namespace Slot

open Token (Balanced)

theorem Fills.stillOpen? {d : Nat} {tokens : List Token} (fills : Fills d tokens) :
    Token.stillOpen? [.round] (List.replicate d .round) tokens = some [] := by
  induction tokens generalizing d with
  | nil =>
      rw [fills_nil.1 fills]
      rfl
  | cons t rest ih =>
      obtain ⟨_, inner, later⟩ := fills_cons.1 fills
      have behind := ih later
      rw [Token.stillOpen?_cons, Token.turn_round]
      rw [depthAfter] at behind
      cases kind : t.kind <;> simp only [kind] at behind ⊢
      case closeParen =>
        cases d with
        | zero => exact absurd kind (inner rfl).2
        | succ d => simpa [List.replicate_succ] using behind
      case openParen => simpa [List.replicate_succ] using behind
      all_goals exact behind

/-- The tokens of a slot close the parentheses that they open. -/
theorem Fills.balanced {tokens : List Token} (fills : Fills 0 tokens) :
    Balanced [.round] tokens := Token.balanced_iff.2 fills.stillOpen?

theorem turn_comma {t : Token} (comma : t.kind = .comma) (kinds : List Bracket) :
    t.turn.among kinds = .keeps := by
  rw [Token.turn_of_kind] <;> simp [comma, Turn.among]

theorem Listed.balanced_round {slots : List Slot} (listed : Listed 0 slots) {inner : List Token}
    {closing : Token} (list : written slots = inner ++ [closing]) : Balanced [.round] inner := by
  induction slots generalizing inner closing with
  | nil => cases listed
  | cons s later ih =>
      rw [written_cons] at list
      cases listed with
      | last fills closes =>
          rw [show written ([] : List Slot) = [] from rfl] at list
          rw [← (List.append_inj' list rfl).1]
          exact fills.balanced
      | next fills comma rest =>
          obtain ⟨inner', closing', list', _⟩ := rest.written_eq
          rw [list', ← List.cons_append, ← List.append_assoc] at list
          rw [← (List.append_inj' list rfl).1, fills.balanced.append_iff,
            Token.balanced_cons_iff (turn_comma comma _)]
          exact ih rest list'

/-- A comma that stands in no inner parentheses separates slots. So if the list as a whole is
balanced, its slots are so exactly if none of these commas stands in brackets. -/
theorem Listed.balanced_iff {slots : List Slot} (listed : Listed 0 slots) {inner : List Token}
    {closing : Token} (list : written slots = inner ++ [closing]) (whole : Balanced Bracket.all inner) :
    (∀ s ∈ slots, Balanced Bracket.all s.tokens) ↔ ∀ before comma after,
      inner = before ++ comma :: after → comma.kind = .comma → Balanced [.round] before →
        Balanced Bracket.all before := by
  induction slots generalizing inner closing with
  | nil => cases listed
  | cons s later ih =>
      rw [written_cons] at list
      -- no comma of the slot itself stands outside of inner parentheses
      have noComma (fills : Fills 0 s.tokens) {before between : List Token} {comma : Token}
          (split : s.tokens = before ++ comma :: between) (separates : comma.kind = .comma)
          (round : Balanced [.round] before) : False := by
        obtain ⟨_, _, other⟩ := fills.inside before comma between split
        exact (other (by rw [round.depth]; rfl)).1 separates
      cases listed with
      | last fills closes =>
          rw [show written ([] : List Slot) = [] from rfl] at list
          obtain rfl := (List.append_inj' list rfl).1
          refine ⟨fun _ before comma after split separates round => ?_, fun _ => ?_⟩
          · exact (noComma fills split separates round).elim
          · simpa using whole
      | next fills comma rest =>
          obtain ⟨inner', closing', list', _⟩ := rest.written_eq
          rw [list', ← List.cons_append, ← List.append_assoc] at list
          obtain rfl := (List.append_inj' list rfl).1
          have keeps := turn_comma comma Bracket.all
          constructor
          · intro balanced before separator after split separates round
            have first := balanced s List.mem_cons_self
            rw [first.append_iff, Token.balanced_cons_iff keeps] at whole
            rcases order_cases split.symm with ⟨between, inside, _⟩ | ⟨rfl, _, _⟩ |
              ⟨between, rfl, behind⟩
            · exact (noComma fills inside separates round).elim
            · exact first
            · rw [first.append_iff, Token.balanced_cons_iff keeps]
              rw [fills.balanced.append_iff, Token.balanced_cons_iff (turn_comma comma _)] at round
              exact (ih rest list' whole).1
                (fun s' member => balanced s' (List.mem_cons_of_mem s member)) between separator
                after behind separates round
          · intro separated
            have first := separated s.tokens s.stop inner' rfl comma fills.balanced
            rw [first.append_iff, Token.balanced_cons_iff keeps] at whole
            have others := (ih rest list' whole).2 fun before separator after split separates round => by
              have longer := separated (s.tokens ++ s.stop :: before) separator after
                (by rw [split]; simp) separates (by
                  rw [fills.balanced.append_iff, Token.balanced_cons_iff (turn_comma comma _)]
                  exact round)
              rwa [first.append_iff, Token.balanced_cons_iff keeps] at longer
            exact List.forall_mem_cons.2 ⟨first, others⟩

end Slot

namespace Call

open Token (Balanced)

theorem list_of_call {table : PrinterTable} {tokens : List Token} {c : Call}
    (found : c ∈ Mention.calls (Mention.ofTokens table tokens)) :
    ∃ slots front inner back, Slot.Listed 0 slots ∧ Slot.Proper slots ∧
      c.arguments = Slot.arguments slots ∧ Slot.written slots = inner ++ [c.closing] ∧
      c.opening.kind = .openParen ∧ c.closing.kind = .closeParen ∧
      tokens = front ++ c.opening :: (inner ++ c.closing :: back) := by
  rw [Mention.calls_eq] at found
  obtain ⟨s, listed, read⟩ := List.mem_filterMap.1 found
  obtain ⟨whole, tracked⟩ := Site.mem_ofTokens_iff.1 listed
  have mention : s.mention = .call c := by
    cases mention : s.mention <;> simp_all [Mention.call?]
  obtain ⟨slots, after, later, closed, proper, rfl⟩ := Mention.readCall_eq_call_iff.1 mention
  obtain ⟨inner, list, _⟩ := closed.closing_eq s.opening
  obtain ⟨_, last, list', closes, _⟩ := closed.written_eq
  rw [list] at list'
  rw [← List.singleton_inj.1 (List.append_inj' list' rfl).2] at closes
  refine ⟨slots, s.before ++ s.name :: s.comments, inner, after, closed, proper, rfl, list,
    tracked.opens, closes, ?_⟩
  rw [← whole, Site.tokens, later, list]
  simp

/-- The arguments of a call are properly nested in parentheses, and if all tokens are properly nested
in all brackets, so is the argument list. Then the arguments are properly nested in all brackets
exactly if no comma stands in brackets without standing in parentheses inside the list. -/
theorem arguments_balanced {table : PrinterTable} {tokens : List Token} {c : Call}
    (found : c ∈ Mention.calls (Mention.ofTokens table tokens))
    (nested : Balanced Bracket.all tokens) :
    (∀ a ∈ c.arguments, Balanced [.round] a.tokens) ∧
      ∃ front inner back, tokens = front ++ c.opening :: (inner ++ c.closing :: back) ∧
        Balanced Bracket.all inner ∧
        ((∀ a ∈ c.arguments, Balanced Bracket.all a.tokens) ↔ ∀ before comma after,
          inner = before ++ comma :: after → comma.kind = .comma → Balanced [.round] before →
            Balanced Bracket.all before) := by
  obtain ⟨slots, front, inner, back, listed, proper, arguments, list, opens, closes, whole⟩ :=
    list_of_call found
  have inside : Balanced Bracket.all inner :=
    Balanced.inside opens closes (whole ▸ nested) (listed.balanced_round list)
  -- an argument is balanced if its slot is, since only comments are trimmed away
  have same (kinds : List Bracket) : (∀ a ∈ c.arguments, Balanced kinds a.tokens) ↔
      ∀ s ∈ slots, Balanced kinds s.tokens := by
    constructor
    · intro balanced s member
      rcases Slot.code_argument proper member with empty | ⟨a, made, code⟩
      · rw [← Token.balanced_code, empty]
        exact .nil
      · rw [← Token.balanced_code, code, Argument.code, Token.balanced_code]
        exact balanced a (arguments ▸ made)
    · intro balanced a made
      obtain ⟨s, member, trimmed⟩ := Slot.mem_arguments (arguments ▸ made)
      rw [trimmed, Slot.trimmed, ← Token.balanced_code, Token.code_trimComments,
        Token.balanced_code]
      exact balanced s member
  refine ⟨(same _).2 fun s member => (listed.fills s member).balanced, front, inner, back, whole,
    inside, ?_⟩
  rw [same, listed.balanced_iff list inside]

/-- A subscript with a comma in it, behind a format. -/
def subscript (inner : List Lexeme) : List Lexeme :=
  [⟨[], .ident, Text.ofString "printf"⟩, ⟨[], .openParen, Text.ofString "("⟩,
   ⟨[], .string, Text.ofString "\"%d\""⟩, ⟨[], .comma, Text.ofString ","⟩,
   ⟨[.char ' '], .ident, Text.ofString "a"⟩, ⟨[], .punct, Text.ofString "["⟩] ++ inner ++
  [⟨[], .punct, Text.ofString "]"⟩, ⟨[], .closeParen, Text.ofString ")"⟩,
   ⟨[], .punct, Text.ofString ";"⟩, ⟨[], .eof, []⟩]

def bareComma : List Lexeme :=
  [⟨[], .other, Text.ofString "1"⟩, ⟨[], .comma, Text.ofString ","⟩,
   ⟨[.char ' '], .other, Text.ofString "2"⟩]

/-- The comma between parentheses of its own. -/
def enclosedComma : List Lexeme :=
  [⟨[], .ident, Text.ofString "f"⟩, ⟨[], .openParen, Text.ofString "("⟩] ++ bareComma ++
  [⟨[], .closeParen, Text.ofString ")"⟩]

/-- A comma in parentheses keeps the subscript that it stands in together. -/
theorem arguments_balanced_enclosedComma :
    ∃ c ∈ Mention.calls (Mention.ofTokens .standard
        (Token.place [] .first (subscript enclosedComma))),
      Balanced Bracket.all (Token.place [] .first (subscript enclosedComma)) ∧
        c.arguments.length = 2 ∧ (∀ a ∈ c.arguments, Balanced [.round] a.tokens) ∧
          ∀ a ∈ c.arguments, Balanced Bracket.all a.tokens := by
  have nested : Balanced Bracket.all (Token.place [] .first (subscript enclosedComma)) := by decide
  obtain ⟨c, found, two, whole⟩ : ∃ c ∈ Mention.calls (Mention.ofTokens .standard
      (Token.place [] .first (subscript enclosedComma))), c.arguments.length = 2 ∧
        ∀ a ∈ c.arguments, Balanced Bracket.all a.tokens := by decide
  exact ⟨c, found, nested, two, (arguments_balanced found nested).1, whole⟩

theorem tokenize_subscript : Token.tokenize [] "printf(\"%d\", a[1, 2]);" =
    .ok (Token.place [] .first (subscript bareComma)) := by
  have chain : Lexeme.Chain (subscript bareComma).dropLast [] := by
    repeat' first
      | exact .nil
      | refine .cons (by decide) (by decide) (Head.read_iff_form.1 rfl) ?_
  rw [show Text.ofString "printf(\"%d\", a[1, 2]);" =
    Lexeme.flatten (subscript bareComma).dropLast by decide, Lexeme.tokenize_words chain]
  rfl

/-- A comma that stands in a subscript and in no parentheses cuts the subscript in two. -/
theorem subscript_comma_splits :
    ¬ ∀ (source : Source) (table : PrinterTable) (tokens : List Token),
      Token.tokenize source.name source.content = .ok tokens → Balanced Bracket.all tokens →
        ∀ c ∈ Mention.calls (Mention.ofTokens table tokens), ∀ a ∈ c.arguments,
          Balanced Bracket.all a.tokens := by
  intro all
  have kept := all ⟨[], "printf(\"%d\", a[1, 2]);"⟩ .standard _ tokenize_subscript (by decide)
  exact absurd kept (by decide)

end Call

end FormatLint
