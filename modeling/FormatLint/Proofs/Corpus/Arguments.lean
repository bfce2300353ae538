import FormatLint.Proofs.Corpus.Drawn
import FormatLint.Proofs.Revision.CastStages

/-!
The arguments of sample calls. A text that is read as an argument keeps its words wherever it is set
apart: expressions do, with or without a cast, and so do literals. The casts are of the families that
their directives ask for.
-/

namespace FormatLint

section Alike

variable {tokens tokens' : List Token}

theorem Token.alike_of_words (same : tokens'.map Token.word = tokens.map Token.word) :
    List.Forall₂ Alike tokens tokens' := by
  induction tokens generalizing tokens' with
  | nil =>
      obtain rfl := List.map_eq_nil_iff.1 same
      exact .nil
  | cons t rest ih =>
      obtain ⟨t', rest', rfl, word, later⟩ := List.map_eq_cons_iff.1 same
      exact .cons ⟨congrArg Prod.fst word, congrArg Prod.snd word⟩ (ih later)

theorem Slot.Fills.alike {d : Nat} (fills : Slot.Fills d tokens)
    (like : List.Forall₂ Token.Alike tokens tokens') : Slot.Fills d tokens' := by
  induction like generalizing d with
  | nil => exact fills
  | cons here _ ih =>
      obtain ⟨continues, outer, later⟩ := Slot.fills_cons.1 fills
      refine Slot.fills_cons.2 ⟨?_, by rwa [here.kind], ih ?_⟩
      · rwa [Slot.endsStatement, here.kind, here.isPunct]
      · rwa [Slot.depthAfter, here.kind]

theorem Token.closes_alike (like : List.Forall₂ Alike tokens tokens') (awaited : List Text) :
    closes awaited tokens' = closes awaited tokens := by
  induction like generalizing awaited with
  | nil => rfl
  | cons here _ ih => simp only [closes, here.lexeme, ih]

theorem Token.Nested.alike (nested : Token.Nested tokens)
    (like : List.Forall₂ Token.Alike tokens tokens') : Token.Nested tokens' := by
  rw [Token.nested_iff] at nested ⊢
  rw [Token.closes_alike like, nested]

end Alike

/-- The words can be one argument of a call. They mention no printer. -/
structure Word.IsArgument (words : List Word) : Prop where
  filled : words ≠ []
  fills : Slot.Fills 0 (words.map (Token.beyond 0))
  nested : Token.Nested (words.map (Token.beyond 0))
  code : ∀ w ∈ words, w.1 ≠ .comment
  unlisted : ∀ w ∈ words, w.1 = .ident → PrinterTable.standard.find? w.2 = none

instance Slot.decidableFills (d : Nat) (tokens : List Token) : Decidable (Slot.Fills d tokens) :=
  match tokens with
  | [] => decidable_of_iff _ Slot.fills_nil.symm
  | t :: rest =>
    have := decidableFills (Slot.depthAfter d t) rest
    decidable_of_iff _ Slot.fills_cons.symm

namespace Word

instance (words : List Word) : Decidable (IsArgument words) :=
  decidable_of_iff
    (words ≠ [] ∧ Slot.Fills 0 (words.map (Token.beyond 0)) ∧
      Token.Nested (words.map (Token.beyond 0)) ∧ (∀ w ∈ words, w.1 ≠ .comment) ∧
      ∀ w ∈ words, w.1 = .ident → PrinterTable.standard.find? w.2 = none)
    ⟨fun ⟨filled, fills, nested, code, unlisted⟩ => ⟨filled, fills, nested, code, unlisted⟩,
      fun ⟨filled, fills, nested, code, unlisted⟩ => ⟨filled, fills, nested, code, unlisted⟩⟩

def castTo (words : List Word) (cType : Text) : List Word :=
  (CType.opening cType).words ++ (words ++ CType.closing.words)

namespace IsArgument

variable {words : List Word} {tokens : List Token}

/-- Tokens of these words. -/
def argument (isArgument : IsArgument words) : Argument :=
  ⟨words.map (Token.beyond 0), by simp [isArgument.filled]⟩

theorem argument_castTo (isArgument : IsArgument words) (cType : Text) :
    (isArgument.argument.castTo 0 cType).tokens = (Word.castTo words cType).map (Token.beyond 0) := by
  simp [Argument.castTo, argument, Word.castTo]

theorem code_eq (isArgument : IsArgument words) (same : tokens.map Token.word = words) :
    Token.code tokens = tokens := by
  refine List.filter_eq_self.2 fun t member => ?_
  have code := isArgument.code t.word (same ▸ List.mem_map_of_mem member)
  simpa [Token.isComment, Token.word] using code

theorem castTo (isArgument : IsArgument words) {cType : Text} (plain : CType.Plain cType) :
    IsArgument (Word.castTo words cType) := by
  have others : ∀ w ∈ Word.castTo words cType, w ∈ words ∨ w ∈ CType.words cType ∨
      w.1 = .openParen ∨ w.1 = .closeParen := by
    intro w member
    simp only [Word.castTo, CType.opening, CType.closing, List.mem_append, List.mem_cons,
      List.not_mem_nil, or_false] at member
    rcases member with ((rfl | inside) | rfl | rfl) | inside | rfl <;> simp_all
  have nested : Token.Nested isArgument.argument.code := by
    rw [show isArgument.argument.code = _ from isArgument.code_eq (Token.words_beyond 0 words)]
    exact isArgument.nested
  have code : ∀ w ∈ Word.castTo words cType, w.1 ≠ .comment := by
    intro w member
    rcases others w member with inside | inside | kind | kind
    · exact isArgument.code w inside
    · rcases plain.kinds w inside with kind | rfl <;> simp_all
    · simp [kind]
    · simp [kind]
  refine ⟨by simp [Word.castTo, CType.opening], ?_, ?_, code, ?_⟩
  · rw [← argument_castTo isArgument cType]
    exact Argument.fills_castTo plain isArgument.fills
  · have cast := Argument.nested_castTo (o := 0) plain nested
    rwa [Argument.code, argument_castTo, Token.code, List.filter_eq_self.2] at cast
    intro t member
    obtain ⟨w, inside, rfl⟩ := List.mem_map.1 member
    simpa [Token.isComment, Token.beyond] using code w inside
  · intro w member ident
    rcases others w member with inside | inside | kind | kind
    · exact isArgument.unlisted w inside ident
    · exact plain.unlisted w inside
    · simp [kind] at ident
    · simp [kind] at ident

theorem exists_cast (isArgument : IsArgument words) {cType : Text} (plain : CType.Plain cType)
    {a : Argument} (same : a.code.map Token.word = Word.castTo words cType) :
    ∃ cast, a.cast? = some cast ∧ cast.family = CType.family? cType := by
  have nested : Token.Nested isArgument.argument.code := by
    rw [show isArgument.argument.code = _ from isArgument.code_eq (Token.words_beyond 0 words)]
    exact isArgument.nested
  obtain ⟨cast, found, family⟩ := Argument.cast?_castTo (o := 0) plain nested
  have code : (isArgument.argument.castTo 0 cType).code =
      (Word.castTo words cType).map (Token.beyond 0) := by
    rw [Argument.code, argument_castTo]
    exact (isArgument.castTo plain).code_eq (Token.words_beyond 0 _)
  have like : List.Forall₂ Token.Alike (isArgument.argument.castTo 0 cType).code a.code := by
    rw [code]
    exact Token.alike_of_words (same.trans (Token.words_beyond 0 _).symm)
  have types := Argument.castType?_alike like
  rw [Argument.castType?, Argument.castType?, found, Option.map_some, Option.map_eq_some_iff] at types
  obtain ⟨cast', found', type⟩ := types
  exact ⟨cast', found', (congrArg Prod.snd type).trans family⟩

end IsArgument

theorem isArgument_literal (body : Text) :
    IsArgument [(.string, .char '"' :: (body ++ [.char '"']))] := by
  refine ⟨by simp, ?_, .of_all ?_, by simp, by simp⟩
  · exact Slot.fills_cons.2 ⟨rfl, fun _ => ⟨nofun, nofun⟩, Slot.fills_nil.2 rfl⟩
  · have other : ∀ g ∈ (.char '"' :: (body ++ [.char '"']) : Text).head?,
        g ∉ Text.ofString "()[]" := by
      rintro g ⟨⟩
      decide
    simp [Token.beyond, Head.noBracket other]

end Word

/-- The text is read as an argument, wherever it is set apart. -/
structure ReadsArgument (t : Text) (words : List Word) : Prop where
  isArgument : Word.IsArgument words
  scan : ∀ {g : Glyph} (rest : Text), Head.isBoundary g = true → Scan t words (g :: rest)

namespace ReadsArgument

/-- A text is read as an argument if its words by themselves are one. -/
theorem of_words {t : Text} (isArgument : Word.IsArgument (CType.words t)) :
    ReadsArgument t (CType.words t) := by
  refine ⟨isArgument, fun {g} rest bounds => ?_⟩
  cases read : Lexeme.ofText t with
  | error fault => exact absurd (by simp [CType.words, read]) isArgument.filled
  | ok lexemes =>
      obtain ⟨chain, blanks, rfl, rfl, chained, blank⟩ := Lexeme.ofText_eq_ok_iff.1 read
      have words : CType.words (Lexeme.flatten chain ++ blanks) = chain.map Lexeme.word := by
        simp [CType.words, read]
      rw [words] at isArgument ⊢
      have code : ∀ last ∈ chain.getLast?, last.kind ≠ .comment := fun last found =>
        isArgument.code last.word (List.mem_map_of_mem (List.mem_of_getLast? found))
      exact CType.scan_chain chained blank code bounds rest

theorem castTo {t : Text} {words : List Word} (reads : ReadsArgument t words) {cType : Text}
    (plain : CType.Plain cType) (glyphs : ∀ g ∈ cType, CType.isTypeGlyph g = true) :
    ReadsArgument ("(" ++ cType ++ ") (" ++ t ++ ")") (Word.castTo words cType) := by
  refine ⟨reads.isArgument.castTo plain, fun {g} rest _ => ?_⟩
  have opening := (CType.sound_opening glyphs).scan ((t ++ Text.ofString ")") ++ g :: rest)
  have inner : Scan t words (Text.ofString ")" ++ g :: rest) := reads.scan _ (by decide)
  have whole := opening.append (inner.append (CType.sound_closing.scan (g :: rest)))
  simpa only [Word.castTo, CType.opening, CType.closing, List.append_assoc] using whole

theorem literal {body : Text} (enclosed : Enclosed body) :
    ReadsArgument ("\"" ++ body ++ "\"") [(.string, .char '"' :: (body ++ [.char '"']))] := by
  refine ⟨Word.isArgument_literal body, fun {g} rest _ => ?_⟩
  have form : Head.Form .string (.char '"' :: (body ++ [.char '"'])) (g :: rest) :=
    Head.form_string_iff.2 ⟨[], body, .inl rfl, enclosed, rfl⟩
  exact .single (by rintro g ⟨⟩; decide) form

end ReadsArgument

namespace Corpus

theorem specimens_arguments : ∀ s ∈ specimens, ∀ e ∈ s.expressions,
    Word.IsArgument (CType.words e) ∧ (CType.words e).head?.all (·.1 ≠ .openParen) = true := by
  decide +kernel

theorem specimens_plain : ∀ s ∈ specimens, CType.Plain s.cType ∧
    ∀ g ∈ s.cType, CType.isTypeGlyph g = true := by
  decide +kernel

theorem targets_arguments : ∀ t ∈ targets, ∀ e ∈ t.fixed, Word.IsArgument (CType.words e) := by
  decide +kernel

/-- The words of the argument of an item. -/
def Item.words (i : Item) : List Word :=
  if i.isCast then Word.castTo (CType.words i.expression) i.specimen.cType
  else CType.words i.expression

theorem Item.Proper.reads {i : Item} (proper : i.Proper) : ReadsArgument i.argumentText i.words := by
  obtain ⟨plain, glyphs⟩ := specimens_plain _ proper.specimen
  have bare := ReadsArgument.of_words (specimens_arguments _ proper.specimen _ proper.expression).1
  unfold Item.argumentText Item.words
  split
  · exact bare.castTo plain glyphs
  · exact bare

theorem Item.Proper.cast_family {i : Item} (proper : i.Proper) {a : Argument}
    (same : a.code.map Token.word = i.words) :
    ∀ cast ∈ a.cast?, cast.family = CType.family? i.specimen.cType := by
  obtain ⟨isArgument, starts⟩ := specimens_arguments _ proper.specimen _ proper.expression
  unfold Item.words at same
  split at same
  · obtain ⟨cast, found, family⟩ :=
      isArgument.exists_cast (specimens_plain _ proper.specimen).1 same
    rintro _ here
    rw [found] at here
    cases here
    exact family
  · have uncast : a.cast? = none := by
      rw [← same] at starts
      unfold Argument.cast?
      split
      · rfl
      · rename_i opening rest code
        rw [code] at starts
        exact if_neg (by simpa [Token.word] using starts)
    simp [uncast]

end Corpus

end FormatLint
