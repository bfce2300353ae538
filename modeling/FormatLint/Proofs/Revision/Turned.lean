import FormatLint.Proofs.Cast.Typed
import FormatLint.Proofs.Revision.SafeForm
import FormatLint.Proofs.Token.Spelled

/-!
The tokens of a file without its comments in which every eligible call is turned into a safe one, to
any depth. Tokens that stay keep their places; those that are written anew stand beyond the file.
`Turned.safeForm` says which words these are.
-/

namespace FormatLint

/-- An argument of a call that is turned: what stands behind it, and what its tokens become. -/
structure TurnedArgument where
  argument : Argument
  stop : Token
  tokens : List Token

/-- An argument behind the format, with its tag and the words of the segment behind it. -/
structure TaggedArgument extends TurnedArgument where
  tag : Text
  segment : List Word

namespace TurnedArgument

def slot (a : TurnedArgument) : Slot := ⟨a.argument.code, a.stop⟩

/-- An argument before the format stays where it is. -/
def written (a : TurnedArgument) : List Token := a.tokens ++ [a.stop]

end TurnedArgument

namespace TaggedArgument

def opening (o : Nat) : List Token := [Word.comma, Word.openBrace].map (Token.beyond o)

def closing (o : Nat) (a : TaggedArgument) : List Token :=
  ([Word.comma, (.ident, a.tag), Word.closeBrace, Word.comma] ++ a.segment).map (Token.beyond o)

def written (o : Nat) (a : TaggedArgument) : List Token := opening o ++ a.tokens ++ a.closing o

end TaggedArgument

/-- A call that is turned, without the comments in it. -/
structure TurnedCall where
  verdict : Verdict
  format : FormatString
  /-- The tokens of the format, and what stands behind it. -/
  literal : Slot
  fixed : List TurnedArgument
  trailing : List TaggedArgument
  /-- The words of the first segment. -/
  segment : List Word

namespace TurnedCall

def call (c : TurnedCall) : Call := c.verdict.call

def slots (c : TurnedCall) : List Slot :=
  c.fixed.map (·.slot) ++ c.literal :: c.trailing.map (·.slot)

def old (c : TurnedCall) : List Token := c.call.name :: c.call.opening :: Slot.written c.slots

/-- The number of segments, and the first segment. -/
def lead (o : Nat) (c : TurnedCall) : List Token :=
  ([(.other, Text.ofNat (c.trailing.length + 1)), Word.comma, Word.openBrace] ++
    c.segment).map (Token.beyond o)

/-- The name of the safe function, where the name of the call stands. -/
def safeName (c : TurnedCall) : Token :=
  { c.call.name with lexeme := c.call.printer.safeName }

def list (o : Nat) (c : TurnedCall) : List Token :=
  c.fixed.flatMap TurnedArgument.written ++ (c.lead o ++
    (c.trailing.flatMap (TaggedArgument.written o) ++
      [Token.beyond o Word.closeBrace, c.call.closing]))

/-- The tokens of the safe call. -/
def new (o : Nat) (c : TurnedCall) : List Token := c.safeName :: c.call.opening :: c.list o

/-- The call is an eligible one among the verdicts, with its own arguments, tags and segments. -/
structure Sound (verdicts : List Verdict) (c : TurnedCall) : Prop where
  listed : c.verdict ∈ verdicts
  eligible : c.verdict.IsEligible c.format
  ident : c.call.name.kind = .ident
  named : PrinterTable.standard.find? c.call.name.lexeme = some c.call.printer
  opens : c.call.opening.kind = .openParen
  slots : Slot.Listed 0 c.slots
  filled : ∀ s ∈ c.slots, ¬ s.IsBlank
  closing : Slot.closing c.call.opening c.slots = c.call.closing
  before : c.fixed.map (·.argument) = c.call.fixedArguments
  literal : c.call.format?.map Argument.code = some c.literal.tokens
  strings : ∀ t ∈ c.literal.tokens, t.kind = .string
  behind : c.trailing.map (·.argument) = c.call.trailingArguments
  tags : c.trailing.map (some ·.tag) = c.format.demands.map fun d => d.family?.map Family.tag
  segments : List.Forall₂ Quoted c.format.segments (c.segment :: c.trailing.map (·.segment))

end TurnedCall

/-- The second list of tokens is the first one with every eligible call in it turned. -/
inductive Turned (o : Nat) (verdicts : List Verdict) : List Token → List Token → Prop
  | nil : Turned o verdicts [] []
  | keep {t : Token} {rest rest' : List Token}
      (other : ∀ v ∈ verdicts, v.call.name = t → ∀ f, ¬ v.IsEligible f)
      (later : Turned o verdicts rest rest') : Turned o verdicts (t :: rest) (t :: rest')
  | call {c : TurnedCall} {rest rest' : List Token} (sound : c.Sound verdicts)
      (fixed : ∀ a ∈ c.fixed, Turned o verdicts a.argument.code a.tokens)
      (trailing : ∀ a ∈ c.trailing, Turned o verdicts a.argument.code a.tokens)
      (later : Turned o verdicts rest rest') :
      Turned o verdicts (c.old ++ rest) (c.new o ++ rest')

variable {o : Nat} {verdicts : List Verdict}

namespace Slot

theorem Listed.commas {d : Nat} {front : List Slot} {s : Slot} {later : List Slot}
    (listed : Listed d (front ++ s :: later)) : ∀ first ∈ front, first.stop.kind = .comma := by
  induction front generalizing d with
  | nil => simp
  | cons first front ih =>
      rw [List.cons_append] at listed
      generalize behind : front ++ s :: later = others at listed
      cases listed with
      | last => exact absurd behind (by simp)
      | next _ comma listed =>
          rw [← behind] at listed
          exact List.forall_mem_cons.2 ⟨comma, ih listed⟩

/-- The words of an argument list, commas between its slots. -/
theorem Listed.words {d : Nat} {slots : List Slot} (listed : Listed d slots)
    (spelled : ∀ s ∈ slots, s.stop.Spelled) (opening : Token) :
    (written slots).map Token.word =
      [Word.comma].intercalate (slots.map (·.tokens.map Token.word)) ++
        [(closing opening slots).word] := by
  induction listed with
  | last => simp [written, closing, List.intercalate]
  | @next d s later fills comma listed ih =>
      have word : s.stop.word = Word.comma := by
        rw [Token.word, comma, (spelled s List.mem_cons_self).comma comma]
        rfl
      have rest := ih fun other member => spelled other (List.mem_cons_of_mem _ member)
      obtain ⟨next, others, rfl⟩ : ∃ next others, later = next :: others := by
        cases listed <;> exact ⟨_, _, rfl⟩
      have last : closing opening (s :: next :: others) = closing opening (next :: others) := by
        rw [closing, closing, List.getLast?_cons_cons]
      rw [written_cons, List.map_append, List.map_cons, rest, word, last]
      simp [List.intercalate]

end Slot

theorem TurnedCall.Sound.stops {c : TurnedCall} (sound : c.Sound verdicts) :
    ∀ a ∈ c.fixed, a.stop.kind = .comma := by
  intro a member
  exact sound.slots.commas a.slot (List.mem_map_of_mem member)

/-- The arguments of the call are those that are turned and the format. -/
theorem TurnedCall.Sound.arguments {c : TurnedCall} (sound : c.Sound verdicts) :
    c.call.arguments.map Argument.code = c.slots.map (·.tokens) := by
  obtain ⟨format, place, literal⟩ := Option.map_eq_some_iff.1 sound.literal
  rw [c.call.arguments_eq, ← sound.before, ← sound.behind, place, TurnedCall.slots]
  simp [TurnedArgument.slot, literal, Function.comp_def]

namespace TurnedArgument

theorem written_words {a : TurnedArgument} (comma : a.stop.kind = .comma) (spelled : a.stop.Spelled) :
    a.written.map Token.word = a.tokens.map Token.word ++ [Word.comma] := by
  rw [written, List.map_append, List.map_singleton, Token.word, comma, spelled.comma comma]
  rfl

end TurnedArgument

namespace TaggedArgument

def safe (a : TaggedArgument) : SafeArgument :=
  ⟨a.argument, a.tokens.map Token.word, a.tag, a.segment⟩

theorem written_words (a : TaggedArgument) : (a.written o).map Token.word = a.safe.written := by
  rw [written, List.map_append, List.map_append, opening, closing, Token.words_beyond, Token.words_beyond,
    ← List.append_assoc]
  rfl

end TaggedArgument

namespace TurnedCall

variable {c : TurnedCall}

theorem list_words (o : Nat) (c : TurnedCall) : (c.list o).map Token.word =
    (c.fixed.flatMap TurnedArgument.written).map Token.word ++
      ([(.other, Text.ofNat (c.trailing.length + 1)), Word.comma, Word.openBrace] ++ c.segment ++
        c.trailing.flatMap (·.safe.written) ++ [Word.closeBrace, c.call.closing.word]) := by
  have trailing : (c.trailing.flatMap (TaggedArgument.written o)).map Token.word =
      c.trailing.flatMap (·.safe.written) := by
    rw [List.map_flatMap]
    exact List.flatMap_congr fun a _ => a.written_words
  rw [list, List.map_append, List.map_append, List.map_append, trailing, lead, Token.words_beyond]
  simp [Token.beyond, Token.word, Word.closeBrace]

/-- The tokens of a turned call are the words of a safe one. -/
theorem Sound.new_words (sound : c.Sound verdicts) (spelled : ∀ t ∈ c.old, t.Spelled) :
    (c.new o).map Token.word = safeWords c.call.printer
      (c.fixed.map fun a => (a.argument, a.tokens.map Token.word)) c.segment
      (c.trailing.map TaggedArgument.safe) := by
  have opening : c.call.opening.word = Word.openParen := by
    rw [Token.word, sound.opens, (spelled c.call.opening (by simp [old])).opening sound.opens]
    rfl
  obtain ⟨inner, last, written, closes, _⟩ := sound.slots.written_eq
  have closing : c.call.closing.word = Word.closeParen := by
    obtain ⟨_, whole, _⟩ := sound.slots.closing_eq c.call.opening
    rw [written, sound.closing] at whole
    obtain rfl := List.singleton_inj.1 (List.append_inj' whole rfl).2
    rw [Token.word, closes, (spelled _ (by simp [old, written])).closing closes]
    rfl
  have fixed : (c.fixed.flatMap TurnedArgument.written).map Token.word =
      c.fixed.flatMap fun a => a.tokens.map Token.word ++ [Word.comma] := by
    rw [List.map_flatMap]
    refine List.flatMap_congr fun a member => a.written_words (sound.stops a member) (spelled _ ?_)
    have stop : a.slot.stop ∈ Slot.written c.slots := Slot.stop_mem_written
      (List.mem_append_left _ (List.mem_map_of_mem member))
    exact List.mem_cons_of_mem _ (List.mem_cons_of_mem _ stop)
  have name : c.safeName.word = (.ident, c.call.printer.safeName) := by
    rw [Token.word, safeName]
    dsimp only
    rw [sound.ident]
  rw [new, List.map_cons, List.map_cons, name, opening, list_words, fixed, closing]
  simp [safeWords, List.flatMap_map]

end TurnedCall

namespace Turned

theorem append {front front' back back' : List Token} (first : Turned o verdicts front front')
    (second : Turned o verdicts back back') :
    Turned o verdicts (front ++ back) (front' ++ back') := by
  induction first with
  | nil => exact second
  | keep other _ ih => exact .keep other ih
  | call sound fixed trailing _ _ _ ih =>
      rw [List.append_assoc, List.append_assoc]
      exact .call sound fixed trailing ih

/-- What the tokens of a file become is spelled as its safe form says. -/
theorem safeForm {tokens tokens' : List Token} (turned : Turned o verdicts tokens tokens')
    (spelled : ∀ t ∈ tokens, t.Spelled) : SafeForm verdicts tokens (tokens'.map Token.word) := by
  induction turned with
  | nil => exact .nil
  | keep other _ ih =>
      exact .keep other (ih fun t member => spelled t (List.mem_cons_of_mem _ member))
  | @call c rest rest' sound fixed trailing later ihFixed ihTrailing ih =>
      have front : ∀ t ∈ c.old, t.Spelled := fun t member => spelled t (List.mem_append_left _ member)
      have code {s : Slot} (listed : s ∈ c.slots) : ∀ t ∈ s.tokens, t.Spelled := fun t member =>
        front t (List.mem_cons_of_mem _ (List.mem_cons_of_mem _ (Slot.subset_written listed member)))
      obtain ⟨inner, written, _⟩ := sound.slots.closing_eq c.call.opening
      rw [sound.closing] at written
      have list : inner.map Token.word = c.verdict.call.listWords := by
        have stops : ∀ s ∈ c.slots, s.stop.Spelled := fun s listed =>
          front _ (List.mem_cons_of_mem _ (List.mem_cons_of_mem _ (Slot.stop_mem_written listed)))
        have words := sound.slots.words stops c.call.opening
        rw [written, sound.closing, List.map_append] at words
        have arguments := congrArg (List.map (List.map Token.word)) sound.arguments
        rw [List.map_map, List.map_map] at arguments
        rw [(List.append_inj' words rfl).1, Call.listWords]
        exact congrArg _ arguments.symm
      have old : c.old ++ rest = c.verdict.call.name :: c.verdict.call.opening ::
          (inner ++ c.verdict.call.closing :: rest) := by
        rw [TurnedCall.old, written]
        simp [TurnedCall.call]
      rw [old, List.map_append, sound.new_words front]
      refine .call sound.listed sound.eligible list ?_ ?_ ?_ ?_ ?_ ?_
        (ih fun t member => spelled t (List.mem_append_right _ member))
      · rw [List.map_map]
        exact sound.before
      · rw [List.map_map]
        exact sound.behind
      · intro entry member
        obtain ⟨a, inside, rfl⟩ := List.mem_map.1 member
        exact ihFixed a inside (code (List.mem_append_left _ (List.mem_map_of_mem inside)))
      · intro entry member
        obtain ⟨a, inside, rfl⟩ := List.mem_map.1 member
        have listed : a.slot ∈ c.trailing.map (·.slot) := List.mem_map_of_mem inside
        exact ihTrailing a inside (code (List.mem_append_right _ (List.mem_cons_of_mem _ listed)))
      · rw [List.map_map]
        exact sound.tags
      · rw [List.map_map]
        exact sound.segments

end Turned

end FormatLint
