import FormatLint.Proofs.Call.Patched
import FormatLint.Proofs.Revision.CastType
import FormatLint.Revision.Typecast

/-!
Arguments behind a cast. The casts that are written out are recognized again, with the family that was
asked for, if the argument is properly nested: `Argument.cast?_castTo`. What type is written there is
known in any case: `Argument.written?_castTo`.
-/

namespace FormatLint

/-- The opening brackets in the tokens are closed, each by its own closing bracket. -/
inductive Token.Nested : List Token → Prop
  | nil : Nested []
  | plain {t : Token} {rest : List Token} (opens : Cast.closer? t.lexeme = none)
      (closes : t.lexeme ∉ Cast.closers) (later : Nested rest) : Nested (t :: rest)
  | group {opening closing : Token} {inner rest : List Token}
      (closed : Cast.closer? opening.lexeme = some closing.lexeme) (inside : Nested inner)
      (later : Nested rest) : Nested (opening :: (inner ++ closing :: rest))

namespace Token.Nested

theorem append {before after : List Token} (first : Nested before) (second : Nested after) :
    Nested (before ++ after) := by
  induction first with
  | nil => exact second
  | plain opens closes _ ih => exact .plain opens closes ih
  | @group opening closing inner rest closed inside _ _ ih =>
      have whole : opening :: (inner ++ closing :: rest) ++ after =
          opening :: (inner ++ closing :: (rest ++ after)) := by simp
      rw [whole]
      exact .group closed inside ih

theorem of_all {tokens : List Token} (plain : ∀ t ∈ tokens, Cast.closer? t.lexeme = none ∧
    t.lexeme ∉ Cast.closers) : Nested tokens := by
  induction tokens with
  | nil => exact .nil
  | cons t rest ih =>
      obtain ⟨opens, closes⟩ := plain t List.mem_cons_self
      exact .plain opens closes (ih fun other member => plain other (List.mem_cons_of_mem t member))

end Token.Nested

namespace Cast

theorem closer?_closer {lexeme closer : Text} (found : closer? lexeme = some closer) :
    closer? closer = none := by
  have all : ∀ mark ∈ closers, closer? mark = none := by decide
  exact all closer (closer?_mem found)

theorem isPostfix_nested {tokens : List Token} (nested : Token.Nested tokens) {awaited : Text}
    (mark : awaited ∈ closers) (outer : List Text) (rest : List Token) :
    isPostfix (awaited :: outer) (tokens ++ rest) = isPostfix (awaited :: outer) rest := by
  induction nested generalizing awaited outer rest with
  | nil => rfl
  | @plain t later opens closes _ ih =>
      have other : t.lexeme ≠ awaited := by
        rintro rfl
        exact closes mark
      rw [List.cons_append, isPostfix_inside, opens]
      dsimp only
      rw [if_neg other, ih mark]
  | @group opening closing inner later closed _ _ ihInner ihLater =>
      rw [List.cons_append, List.append_assoc, List.cons_append, isPostfix_inside, closed]
      dsimp only
      rw [ihInner (closer?_mem closed), isPostfix_inside, closer?_closer closed]
      dsimp only
      rw [if_pos rfl, ihLater mark]

end Cast

namespace Token

/-- The tokens close the brackets that are open, innermost first, and those that they open. -/
def closes : List Text → List Token → Bool
  | awaited, [] => awaited.isEmpty
  | awaited, t :: rest =>
    match Cast.closer? t.lexeme with
    | some closer => closes (closer :: awaited) rest
    | none =>
      if t.lexeme ∈ Cast.closers then awaited.head? = some t.lexeme && closes awaited.tail rest
      else closes awaited rest

/-- Properly nested tokens with the awaited brackets between them. -/
def NestedUpTo : List Text → List Token → Prop
  | [], tokens => Nested tokens
  | awaited :: outer, tokens => ∃ inner closing rest, tokens = inner ++ closing :: rest ∧
      Nested inner ∧ closing.lexeme = awaited ∧ NestedUpTo outer rest

theorem Nested.upTo {before after : List Token} (nested : Nested before) {awaited : List Text}
    (rest : NestedUpTo awaited after) : NestedUpTo awaited (before ++ after) := by
  cases awaited with
  | nil => exact nested.append rest
  | cons mark outer =>
      obtain ⟨inner, closing, later, rfl, inside, closed, rest⟩ := rest
      exact ⟨before ++ inner, closing, later, by simp, nested.append inside, closed, rest⟩

theorem nestedUpTo_of_closes {awaited : List Text} {tokens : List Token}
    (closed : closes awaited tokens = true) : NestedUpTo awaited tokens := by
  induction tokens generalizing awaited with
  | nil =>
      rw [List.isEmpty_iff.1 closed]
      exact .nil
  | cons t rest ih =>
      rw [closes] at closed
      split at closed
      · rename_i closer opens
        obtain ⟨inner, closing, later, rfl, inside, same, outer⟩ := ih closed
        have group : Nested (t :: (inner ++ closing :: [])) :=
          .group (opens.trans (congrArg some same.symm)) inside .nil
        have whole := group.upTo outer
        simpa using whole
      · rename_i opens
        split at closed
        · obtain ⟨head, closed⟩ := Bool.and_eq_true_iff.1 closed
          obtain ⟨outer, rfl⟩ := List.head?_eq_some_iff.1 (of_decide_eq_true head)
          exact ⟨[], t, rest, rfl, .nil, rfl, ih closed⟩
        · rename_i other
          exact (Nested.plain opens other .nil).upTo (ih closed)

theorem Nested.closes_append {tokens : List Token} (nested : Nested tokens) (awaited : List Text)
    (rest : List Token) : closes awaited (tokens ++ rest) = closes awaited rest := by
  induction nested generalizing awaited rest with
  | nil => rfl
  | plain opens other _ ih =>
      rw [List.cons_append, closes, opens]
      dsimp only
      rw [if_neg other, ih]
  | group closed _ _ ihInner ihLater =>
      rw [List.cons_append, List.append_assoc, closes, closed]
      dsimp only
      rw [ihInner, List.cons_append, closes, Cast.closer?_closer closed]
      dsimp only
      rw [if_pos (Cast.closer?_mem closed), ihLater]
      simp

/-- Counting brackets decides whether tokens are properly nested. -/
theorem nested_iff {tokens : List Token} : Nested tokens ↔ closes [] tokens = true := by
  refine ⟨fun nested => ?_, nestedUpTo_of_closes⟩
  have whole := nested.closes_append [] []
  rw [List.append_nil] at whole
  rw [whole]
  rfl

instance (tokens : List Token) : Decidable (Nested tokens) := decidable_of_iff _ nested_iff.symm

end Token

namespace Cast

/-- Two argument lists that are properly nested can stand for each other. -/
theorem Swap.even_of_nested {w : Swap} (nested : Token.Nested w.inner)
    (nested' : Token.Nested w.inner') : w.Even := by
  intro outer back
  rw [isPostfix_nested nested' (by simp [closers]), isPostfix_nested nested (by simp [closers])]

end Cast

namespace CType

def spelling (cType : Text) : Text := Spelling.ofWords ((words cType).map Prod.snd)

def family? (cType : Text) : Option Family := Spelling.family? (spelling cType)

/-- The type is recognized in a cast, and calls no printer. -/
structure Plain (cType : Text) : Prop where
  begins : (words cType).head?.any (·.1 = .ident) = true
  kinds : ∀ word ∈ words cType, word.1 = .ident ∨ word = (.punct, Text.ofString "*")
  names : (spelling cType).head?.any (· ≠ .char '*') = true
  unlisted : ∀ word ∈ words cType, PrinterTable.standard.find? word.2 = none
  brackets : ∀ word ∈ words cType, Cast.closer? word.2 = none ∧ word.2 ∉ Cast.closers

instance (cType : Text) : Decidable (Plain cType) :=
  decidable_of_iff
    ((words cType).head?.any (·.1 = .ident) = true ∧
      (∀ word ∈ words cType, word.1 = .ident ∨ word = (.punct, Text.ofString "*")) ∧
      (spelling cType).head?.any (· ≠ .char '*') = true ∧
      (∀ word ∈ words cType, PrinterTable.standard.find? word.2 = none) ∧
      ∀ word ∈ words cType, Cast.closer? word.2 = none ∧ word.2 ∉ Cast.closers)
    ⟨fun ⟨begins, kinds, names, unlisted, brackets⟩ => ⟨begins, kinds, names, unlisted, brackets⟩,
      fun ⟨begins, kinds, names, unlisted, brackets⟩ => ⟨begins, kinds, names, unlisted, brackets⟩⟩

theorem conversion_plain (c : Conversion) (length : Option LengthModifier) :
    Plain (c.cType length) ∧ family? (c.cType length) = some c.family := by
  have all : ∀ c ∈ [Conversion.integer, .unsigned, .floating, .char, .string, .pointer, .count],
      ∀ length ∈ none :: LengthModifier.all.map some,
        Plain (c.cType length) ∧ family? (c.cType length) = some c.family := by
    decide +kernel
  refine all c (by cases c <;> decide) length ?_
  rcases length with _ | length
  · exact List.mem_cons_self
  · exact List.mem_cons_of_mem _ (List.mem_map_of_mem (by cases length <;> decide))

theorem demand_plain {d : Demand} {cType : Text} (demanded : d.cType? = some cType) :
    Plain cType ∧ d.family? = family? cType ∧ (family? cType).isSome = true := by
  have integer : Plain "int" ∧ family? "int" = some .integer := by decide +kernel
  unfold Demand.cType? at demanded
  unfold Demand.family?
  split at demanded
  · unfold Directive.cType? at demanded
    obtain ⟨c, found, rfl⟩ := Option.map_eq_some_iff.1 demanded
    obtain ⟨plain, family⟩ := conversion_plain c d.directive.length
    simp [plain, family, Directive.family?, found]
  · cases demanded
    exact ⟨integer.1, integer.2.symm, by rw [integer.2]; rfl⟩

theorem fixed_plain {identifier : Text} {printer : Printer}
    (listed : PrinterTable.standard.find? identifier = some printer) :
    ∀ cType ∈ printer.fixedTypes, Plain cType := by
  have all : ∀ entry ∈ PrinterTable.standard, ∀ cType ∈ entry.2.fixedTypes, Plain cType := by
    decide +kernel
  obtain ⟨front, back, parts, _⟩ := List.lookup_eq_some_iff.1 listed
  exact all (identifier, printer) (List.mem_reverse.1 (by simp [parts]))

end CType

/-- A token that is no part of the file: it stands behind the offset `o`, where the file has ended. -/
def Token.beyond (o : Nat) (word : Word) : Token :=
  ⟨word.1, word.2, ⟨[], ⟨o, 0, 0⟩, ⟨o + word.2.length, 0, 0⟩⟩⟩

@[simp] theorem Token.words_beyond (o : Nat) (words : List Word) :
    (words.map (beyond o)).map word = words := by
  rw [List.map_map]
  exact List.map_id words

namespace Argument

/-- The argument in parentheses behind a cast. -/
def castTo (o : Nat) (a : Argument) (cType : Text) : Argument :=
  ⟨(CType.opening cType).words.map (Token.beyond o) ++
      (a.tokens ++ CType.closing.words.map (Token.beyond o)), by simp [a.nonempty]⟩

variable {o : Nat} {a : Argument} {cType : Text}

theorem code_castTo (plain : CType.Plain cType) : (a.castTo o cType).code =
    Token.beyond o (.openParen, Text.ofString "(") :: ((CType.words cType).map (Token.beyond o) ++
      Token.beyond o (.closeParen, Text.ofString ")") ::
        Token.beyond o (.openParen, Text.ofString "(") ::
          (a.code ++ [Token.beyond o (.closeParen, Text.ofString ")")])) := by
  have words : Token.code ((CType.words cType).map (Token.beyond o)) =
      (CType.words cType).map (Token.beyond o) := by
    refine List.filter_eq_self.2 fun t member => ?_
    obtain ⟨word, inside, rfl⟩ := List.mem_map.1 member
    rcases plain.kinds word inside with kind | rfl
    · simp [Token.isComment, Token.beyond, kind]
    · simp [Token.isComment, Token.beyond]
  rw [code, castTo]
  simp only [CType.opening, CType.closing, List.map_append, List.map_cons, List.map_nil,
    Token.code_append, words]
  simp [Token.code, Token.isComment, Token.beyond, code]

/-- The words of the type stand between the parentheses of the cast, and an operand behind them. -/
theorem typeWords_castTo (plain : CType.Plain cType) (rest : List Token) :
    let tokens := (CType.words cType).map (Token.beyond o) ++
      Token.beyond o (.closeParen, Text.ofString ")") :: rest
    tokens.takeWhile Cast.isTypeWord = (CType.words cType).map (Token.beyond o) ∧
      tokens.dropWhile Cast.isTypeWord = Token.beyond o (.closeParen, Text.ofString ")") :: rest := by
  have words : ∀ t ∈ (CType.words cType).map (Token.beyond o), Cast.isTypeWord t = true := by
    intro t member
    obtain ⟨word, inside, rfl⟩ := List.mem_map.1 member
    rcases plain.kinds word inside with kind | rfl
    · simp [Cast.isTypeWord, Token.beyond, kind]
    · simp [Cast.isTypeWord, Token.beyond, Token.isPunct]
  have stops : Cast.isTypeWord (Token.beyond o (.closeParen, Text.ofString ")")) = false := by
    simp [Cast.isTypeWord, Token.beyond, Token.isPunct]
  constructor
  · rw [List.takeWhile_append_of_pos words, List.takeWhile_cons_of_neg (by simp [stops]),
      List.append_nil]
  · rw [List.dropWhile_append_of_pos words, List.dropWhile_cons_of_neg (by simp [stops])]

/-- The type that is written in front of an argument that is cast. -/
theorem written?_castTo (plain : CType.Plain cType) :
    ∃ c, (a.castTo o cType).written? = some c ∧ c.spelling = CType.spelling cType ∧
      c.family = CType.family? cType := by
  obtain ⟨front, back⟩ := typeWords_castTo (o := o) plain
    (Token.beyond o (.openParen, Text.ofString "(") ::
      (a.code ++ [Token.beyond o (.closeParen, Text.ofString ")")]))
  have lexemes : ((CType.words cType).map (Token.beyond o)).map (·.lexeme) =
      (CType.words cType).map Prod.snd := by
    simp [Token.beyond, Function.comp_def]
  have first : ((CType.words cType).map (Token.beyond o)).head?.any (·.kind = .ident) = true := by
    have begins := plain.begins
    rw [List.head?_map, Option.any_map]
    exact begins
  refine ⟨⟨CType.spelling cType, CType.family? cType,
    (Token.beyond o (.openParen, Text.ofString "(")).span.through
      (Token.beyond o (.closeParen, Text.ofString ")")).span⟩, ?_, rfl, rfl⟩
  have names := plain.names
  unfold CType.spelling at names
  rw [written?, code_castTo plain]
  dsimp only
  rw [if_pos (by rfl), Cast.written?]
  dsimp only
  rw [front, back, lexemes, first]
  dsimp only
  rw [names, if_pos (by simp [Token.beyond])]
  rfl

/-- An argument that is properly nested and cast has this cast. -/
theorem cast?_castTo (plain : CType.Plain cType) (nested : Token.Nested a.code) :
    ∃ c, (a.castTo o cType).cast? = some c ∧ c.family = CType.family? cType := by
  obtain ⟨c, written, _, family⟩ := written?_castTo (o := o) (a := a) plain
  refine ⟨c, ?_, family⟩
  obtain ⟨_, back⟩ := typeWords_castTo (o := o) plain
    (Token.beyond o (.openParen, Text.ofString "(") ::
      (a.code ++ [Token.beyond o (.closeParen, Text.ofString ")")]))
  rw [Argument.written?, code_castTo plain] at written
  rw [cast?, code_castTo plain]
  dsimp only at written ⊢
  rw [if_pos (by rfl)] at written ⊢
  refine Cast.ofTokens?_eq_some_iff.2 ⟨written, ?_⟩
  rw [back, List.tail_cons, Cast.isOperand, List.dropWhile_cons_of_neg (by
    simp [Token.isPunct, Token.beyond]), Cast.isPrimary]
  change Cast.isPostfix [Text.ofString ")"] _ = true
  rw [Cast.isPostfix_nested nested (by simp [Cast.closers])]
  rw [Cast.isPostfix_inside]
  have closes : Cast.closer? (Text.ofString ")") = none := by decide
  simp [Token.beyond, closes, Cast.isPostfix]

end Argument

end FormatLint
