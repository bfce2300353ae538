import FormatLint.Proofs.Call.Bare
import FormatLint.Proofs.Call.Step
import FormatLint.Proofs.Revision.CastTypes

/-!
The casts of one call, written into the tokens of its argument list: the list stays one of as many
slots, each of which holds the same mentions. `Site.exists_castPatch` puts this together.
-/

namespace FormatLint

open Insertion (wordsOf)

theorem Argument.tokens_cases (a : Argument) : a.tokens = [a.first] ∧ a.last = a.first ∨
    ∃ inner, a.tokens = a.first :: (inner ++ [a.last]) := by
  obtain ⟨first, rest, whole⟩ := List.exists_cons_of_ne_nil a.nonempty
  have begins : a.first = first := by simp [Argument.first, whole]
  rcases List.eq_nil_or_concat rest with rfl | ⟨inner, last, rfl⟩
  · exact .inl (by simp [Argument.first, Argument.last, whole])
  · have ends : a.last = last := by simp [Argument.last, whole]
    exact .inr ⟨inner, by rw [whole, begins, ends, List.concat_eq_append]⟩

namespace Castable

/-- Tokens with casts opened in front of them and closed behind them. What is inserted stands beyond
the offset `o`. -/
def recastTokens (o : Nat) (casts : List (Argument × Text)) (tokens : List Token) : List Token :=
  tokens.flatMap fun t => (wordsOf (openings casts t)).map (Token.beyond o) ++
    t :: (wordsOf (closings casts t)).map (Token.beyond o)

variable {o : Nat} {casts more : List (Argument × Text)} {tokens : List Token}

theorem recastTokens_append (front back : List Token) : recastTokens o casts (front ++ back) =
    recastTokens o casts front ++ recastTokens o casts back := List.flatMap_append

theorem recastTokens_words (tokens : List Token) : (recastTokens o casts tokens).map Token.word =
    Insertion.revisedWords (openings casts) (closings casts) tokens := by
  rw [recastTokens, Insertion.revisedWords, List.map_flatMap]
  refine List.flatMap_congr fun t _ => ?_
  rw [List.map_append, List.map_cons, Token.words_beyond, Token.words_beyond]

/-- The cast neither opens nor closes at one of the tokens. -/
def Elsewhere (tokens : List Token) (cast : Argument × Text) : Prop :=
  cast.1.first ∉ tokens ∧ cast.1.last ∉ tokens

theorem openings_append (t : Token) :
    openings (casts ++ more) t = openings casts t ++ openings more t := by
  simp [openings]

theorem closings_append (t : Token) :
    closings (casts ++ more) t = closings casts t ++ closings more t := by
  simp [closings]

theorem openings_elsewhere {t : Token} (elsewhere : ∀ cast ∈ casts, cast.1.first ≠ t) :
    openings casts t = [] := by
  rw [openings, List.map_eq_nil_iff, List.filter_eq_nil_iff]
  exact fun cast member => by simpa using elsewhere cast member

theorem closings_elsewhere {t : Token} (elsewhere : ∀ cast ∈ casts, cast.1.last ≠ t) :
    closings casts t = [] := by
  rw [closings, List.map_eq_nil_iff, List.filter_eq_nil_iff]
  exact fun cast member => by simpa using elsewhere cast member

theorem edits_elsewhere (elsewhere : ∀ cast ∈ casts, Elsewhere tokens cast) {t : Token}
    (member : t ∈ tokens) : openings casts t = [] ∧ closings casts t = [] :=
  ⟨openings_elsewhere fun cast listed first => (elsewhere cast listed).1 (first ▸ member),
    closings_elsewhere fun cast listed last => (elsewhere cast listed).2 (last ▸ member)⟩

/-- Casts elsewhere do not count. -/
theorem recastTokens_front (o : Nat) (casts : List (Argument × Text))
    (elsewhere : ∀ cast ∈ more, Elsewhere tokens cast) :
    recastTokens o (casts ++ more) tokens = recastTokens o casts tokens := by
  refine List.flatMap_congr fun t member => ?_
  obtain ⟨opens, closes⟩ := edits_elsewhere elsewhere member
  rw [openings_append, closings_append, opens, closes, List.append_nil, List.append_nil]

theorem recastTokens_back (o : Nat) (more : List (Argument × Text))
    (elsewhere : ∀ cast ∈ casts, Elsewhere tokens cast) :
    recastTokens o (casts ++ more) tokens = recastTokens o more tokens := by
  refine List.flatMap_congr fun t member => ?_
  obtain ⟨opens, closes⟩ := edits_elsewhere elsewhere member
  rw [openings_append, closings_append, opens, closes, List.nil_append, List.nil_append]

theorem recastTokens_nil (tokens : List Token) : recastTokens o [] tokens = tokens := by
  simp [recastTokens, openings, closings, wordsOf]

theorem recastTokens_elsewhere (elsewhere : ∀ cast ∈ casts, Elsewhere tokens cast) :
    recastTokens o casts tokens = tokens := by
  have front := recastTokens_front o [] elsewhere
  rwa [List.nil_append, recastTokens_nil] at front

/-- A cast opens at the first token of its argument and closes at the last one. -/
theorem recastTokens_argument {a : Argument} (distinct : a.tokens.Nodup) (cType : Text) :
    recastTokens o [(a, cType)] a.tokens = (a.castTo o cType).tokens := by
  have opened : openings [(a, cType)] a.first = [CType.opening cType] := by simp [openings]
  have closed : closings [(a, cType)] a.last = [CType.closing] := by simp [closings]
  have made : (a.castTo o cType).tokens = (CType.opening cType).words.map (Token.beyond o) ++
      (a.tokens ++ CType.closing.words.map (Token.beyond o)) := by
    rw [Argument.castTo]
  rw [made]
  rcases a.tokens_cases with ⟨alone, same⟩ | ⟨inner, whole⟩
  · rw [same] at closed
    rw [alone, recastTokens, List.flatMap_singleton, opened, closed]
    simp [wordsOf]
  · rw [whole] at distinct ⊢
    obtain ⟨first, rest⟩ := List.nodup_cons.1 distinct
    obtain ⟨_, _, last⟩ := List.nodup_append.1 rest
    have middle : recastTokens o [(a, cType)] inner = inner := by
      refine recastTokens_elsewhere fun cast member => ?_
      rw [List.mem_singleton.1 member]
      exact ⟨fun again => first (List.mem_append_left _ again),
        fun again => last a.last again a.last List.mem_cons_self rfl⟩
    have other : a.first ≠ a.last := fun same => first (by simp [same])
    have noClosing : closings [(a, cType)] a.first = [] := by simp [closings, other.symm]
    have noOpening : openings [(a, cType)] a.last = [] := by simp [openings, other]
    have front : recastTokens o [(a, cType)] [a.first] =
        (CType.opening cType).words.map (Token.beyond o) ++ [a.first] := by
      rw [recastTokens, List.flatMap_singleton, opened, noClosing]
      simp [wordsOf]
    have back : recastTokens o [(a, cType)] [a.last] =
        a.last :: CType.closing.words.map (Token.beyond o) := by
      rw [recastTokens, List.flatMap_singleton, noOpening, closed]
      simp [wordsOf]
    have parts : a.first :: (inner ++ [a.last]) = [a.first] ++ (inner ++ [a.last]) := rfl
    rw [parts, recastTokens_append, recastTokens_append, front, middle, back]
    simp

end Castable

/-- The arguments for which a type is listed, each with its type. -/
def Argument.chosen (arguments : List Argument) (types : List (Option Text)) :
    List (Argument × Text) :=
  (arguments.zip types).filterMap fun cast => cast.2.map (cast.1, ·)

theorem Argument.chosen_cons (a : Argument) (args : List Argument) (cType : Option Text)
    (types : List (Option Text)) : chosen (a :: args) (cType :: types) =
      (cType.map (a, ·)).toList ++ chosen args types := by
  rw [chosen, List.zip_cons_cons, List.filterMap_cons]
  cases cType <;> rfl

theorem Argument.mem_of_chosen {args : List Argument} {types : List (Option Text)}
    {cast : Argument × Text} (member : cast ∈ chosen args types) : cast.1 ∈ args := by
  obtain ⟨entry, listed, made⟩ := List.mem_filterMap.1 member
  obtain ⟨_, _, rfl⟩ := Option.map_eq_some_iff.1 made
  exact (List.of_mem_zip listed).1

theorem Argument.recastTokens_recast {a : Argument} (distinct : a.tokens.Nodup) (o : Nat)
    (cType : Option Text) : Castable.recastTokens o (cType.map (a, ·)).toList a.tokens =
      (a.recast o cType).tokens := by
  cases cType with
  | none => exact Castable.recastTokens_nil _
  | some cType => exact Castable.recastTokens_argument distinct cType

def Argument.Plain (a : Argument) : Prop := ∀ t ∈ a.tokens, t.kind ≠ .comment

theorem Token.trimComments_plain {tokens : List Token} (plain : ∀ t ∈ tokens, t.kind ≠ .comment) :
    trimComments tokens = tokens := by
  rw [← code_of_plain plain, trimComments_code]

namespace Slot

def refill (slots : List Slot) (arguments : List Argument) : List Slot :=
  (slots.zip arguments).map fun entry => ⟨entry.2.tokens, entry.1.stop⟩

variable {slots : List Slot} {args : List Argument}

theorem refill_self (same : slots.map (·.tokens) = args.map (·.tokens)) :
    refill slots args = slots := by
  induction slots generalizing args with
  | nil => rfl
  | cons s later ih =>
      cases args with
      | nil => cases same
      | cons a args =>
          obtain ⟨here, rest⟩ := List.cons.inj same
          replace here : s.tokens = a.tokens := here
          rw [refill, List.zip_cons_cons, List.map_cons, ← here]
          exact congrArg (s :: ·) (ih rest)

theorem refill_closing (same : args.length = slots.length) (opening : Token) :
    closing opening (refill slots args) = closing opening slots := by
  have stops : (refill slots args).map (·.stop) = slots.map (·.stop) := by
    have front := List.map_fst_zip (Nat.le_of_eq same.symm)
    conv => rhs; rw [← front]
    rw [refill, List.map_map, List.map_map]
    rfl
  rw [closing, closing, ← List.getLast?_map, stops, List.getLast?_map]

theorem refill_listed (listed : Listed 0 slots) (same : args.length = slots.length)
    (fills : ∀ a ∈ args, Fills 0 a.tokens) : Listed 0 (refill slots args) := by
  generalize zero : 0 = d at listed
  induction listed generalizing args with
  | last _ closes =>
      subst zero
      obtain ⟨a, args, rfl⟩ := List.exists_cons_of_length_eq_add_one same
      rw [List.eq_nil_of_length_eq_zero (Nat.succ.inj same)] at fills ⊢
      exact .last (fills a List.mem_cons_self) closes
  | next _ comma _ ih =>
      subst zero
      obtain ⟨a, args, rfl⟩ := List.exists_cons_of_length_eq_add_one same
      exact .next (fills a List.mem_cons_self) comma
        (ih (Nat.succ.inj same) (fun b member => fills b (List.mem_cons_of_mem a member)) rfl)

theorem refill_filled (plain : ∀ a ∈ args, a.Plain) : ∀ s ∈ refill slots args, ¬ s.IsBlank := by
  intro s member blank
  obtain ⟨⟨_, a⟩, listed, rfl⟩ := List.mem_map.1 member
  exact plain a (List.of_mem_zip listed).2 a.first a.first_mem (blank a.first a.first_mem)

theorem refill_proper (plain : ∀ a ∈ args, a.Plain) : Proper (refill slots args) :=
  fun s member blank => absurd blank (refill_filled plain s member)

theorem arguments_refill (same : args.length = slots.length) (plain : ∀ a ∈ args, a.Plain) :
    arguments (refill slots args) = args := by
  have filled : areBare (refill slots args) = false := by
    refine Bool.eq_false_iff.2 fun bare => ?_
    obtain ⟨only, alone, blank⟩ := areBare_iff.1 bare
    have member : only ∈ refill slots args := by
      rw [alone]
      exact List.mem_cons_self
    exact refill_filled plain only member blank
  rw [arguments, filled, refill]
  simp only [Bool.false_eq_true, if_false]
  clear filled
  induction slots generalizing args with
  | nil =>
      rw [List.eq_nil_of_length_eq_zero same]
      rfl
  | cons s later ih =>
      obtain ⟨a, args, rfl⟩ := List.exists_cons_of_length_eq_add_one same
      rw [List.zip_cons_cons, List.map_cons, List.filterMap_cons, trimmed,
        Token.trimComments_plain (plain a List.mem_cons_self), Argument.ofTokens?_tokens]
      exact congrArg (a :: ·)
        (ih (Nat.succ.inj same) fun b member => plain b (List.mem_cons_of_mem a member))

theorem flatMap_refill {α : Type} (same : args.length = slots.length) (f : List Token → List α) :
    (refill slots args).flatMap (fun s => f s.tokens) = args.flatMap fun a => f a.tokens := by
  induction slots generalizing args with
  | nil =>
      rw [List.eq_nil_of_length_eq_zero same]
      rfl
  | cons s later ih =>
      obtain ⟨a, args, rfl⟩ := List.exists_cons_of_length_eq_add_one same
      rw [refill, List.zip_cons_cons, List.map_cons, List.flatMap_cons, List.flatMap_cons]
      exact congrArg (f a.tokens ++ ·) (ih (Nat.succ.inj same))

theorem chosen_written (same : slots.map (·.tokens) = args.map (·.tokens))
    (types : List (Option Text)) : ∀ cast ∈ Argument.chosen args types,
      cast.1.first ∈ written slots ∧ cast.1.last ∈ written slots := by
  intro cast member
  have tokens := List.mem_map_of_mem (f := (·.tokens)) (Argument.mem_of_chosen member)
  rw [← same] at tokens
  obtain ⟨s, inside, equal⟩ := List.mem_map.1 tokens
  have part : cast.1.tokens ⊆ written slots := equal ▸ subset_written inside
  exact ⟨part cast.1.first_mem, part cast.1.last_mem⟩

/-- Casting the arguments of a list is writing them with their casts into the slots. -/
theorem recastTokens_written (o : Nat) (same : slots.map (·.tokens) = args.map (·.tokens))
    (distinct : (written slots).Nodup) (types : List (Option Text)) :
    Castable.recastTokens o (Argument.chosen args types) (written slots) =
      written (refill slots (Argument.recastAll o args types)) := by
  induction slots generalizing args types with
  | nil => simp [written, refill, Castable.recastTokens]
  | cons s later ih =>
      cases args with
      | nil => cases same
      | cons a args =>
          cases types with
          | nil =>
              rw [Argument.recastAll_nil, refill_self same, Argument.chosen, List.zip_nil_right]
              exact Castable.recastTokens_nil _
          | cons cType types =>
              obtain ⟨here, rest⟩ := List.cons.inj same
              replace here : s.tokens = a.tokens := here
              rw [written_cons, here] at distinct
              obtain ⟨slot, behind, apart⟩ := List.nodup_append.1 distinct
              obtain ⟨fresh, behind⟩ := List.nodup_cons.1 behind
              have inside := chosen_written rest types
              -- the cast of the first argument stands in its slot, all others behind the slot's end
              have own : ∀ cast ∈ (cType.map (a, ·)).toList,
                  Castable.Elsewhere (s.stop :: written later) cast := by
                intro cast member
                obtain ⟨_, _, rfl⟩ := Option.map_eq_some_iff.1 (Option.mem_toList.1 member)
                exact ⟨fun again => apart _ a.first_mem _ again rfl,
                  fun again => apart _ a.last_mem _ again rfl⟩
              have others : ∀ cast ∈ Argument.chosen args types,
                  Castable.Elsewhere a.tokens cast := fun cast member =>
                ⟨fun again => apart _ again _ (List.mem_cons_of_mem _ (inside cast member).1) rfl,
                  fun again => apart _ again _ (List.mem_cons_of_mem _ (inside cast member).2) rfl⟩
              have stop : Castable.recastTokens o (Argument.chosen args types) [s.stop] =
                  [s.stop] := by
                refine Castable.recastTokens_elsewhere fun cast member => ⟨?_, ?_⟩
                · exact fun again => fresh (List.mem_singleton.1 again ▸ (inside cast member).1)
                · exact fun again => fresh (List.mem_singleton.1 again ▸ (inside cast member).2)
              rw [written_cons, here, Argument.chosen_cons, Castable.recastTokens_append,
                Castable.recastTokens_front o _ others, Argument.recastTokens_recast slot,
                Castable.recastTokens_back o _ own, ← List.singleton_append,
                Castable.recastTokens_append, stop, ih rest behind types]
              simp [refill, Argument.recastAll, written]

end Slot

namespace Slot

/-- The token neither ends a slot nor opens or closes a parenthesis. -/
def Idle (t : Token) : Prop := t.kind = .ident ∨ (t.kind = .punct ∧ t.lexeme = Text.ofString "*")

theorem fills_idle {d : Nat} {idle rest : List Token} (all : ∀ t ∈ idle, Idle t)
    (fills : Fills d rest) : Fills d (idle ++ rest) := by
  induction idle with
  | nil => exact fills
  | cons t idle ih =>
      have later := ih fun other member => all other (List.mem_cons_of_mem t member)
      rcases all t List.mem_cons_self with kind | ⟨kind, star⟩
      · refine fills_cons.2 ⟨by simp [endsStatement, Token.isPunct, kind], by simp [kind], ?_⟩
        simpa [depthAfter, kind] using later
      · have other : Text.ofString "*" ≠ Text.ofString ";" := by decide
        refine fills_cons.2 ⟨by simp [endsStatement, Token.isPunct, kind, star, other],
          by simp [kind], ?_⟩
        simpa [depthAfter, kind] using later

end Slot

/-- What opens a cast ends with the parenthesis in front of the argument. -/
theorem CType.opening_words (cType : Text) : (CType.opening cType).words =
    ((TokenKind.openParen, Text.ofString "(") ::
      (CType.words cType ++ [(TokenKind.closeParen, Text.ofString ")")])) ++
        [(TokenKind.openParen, Text.ofString "(")] := by
  simp [CType.opening]

namespace Argument

variable {o : Nat} {a : Argument} {cType : Text}

theorem castTo_tokens (o : Nat) (a : Argument) (cType : Text) : (a.castTo o cType).tokens =
    Token.beyond o (.openParen, Text.ofString "(") :: ((CType.words cType).map (Token.beyond o) ++
      Token.beyond o (.closeParen, Text.ofString ")") ::
        Token.beyond o (.openParen, Text.ofString "(") ::
          (a.tokens ++ [Token.beyond o (.closeParen, Text.ofString ")")])) := by
  simp [castTo, CType.opening, CType.closing]

theorem idle_words (plain : CType.Plain cType) :
    ∀ t ∈ (CType.words cType).map (Token.beyond o), Slot.Idle t := by
  intro t member
  obtain ⟨word, inside, rfl⟩ := List.mem_map.1 member
  rcases plain.kinds word inside with kind | rfl
  · exact .inl kind
  · exact .inr ⟨rfl, rfl⟩

theorem plain_castTo (plain : CType.Plain cType) (bare : a.Plain) : (a.castTo o cType).Plain := by
  intro t member
  rw [castTo_tokens] at member
  simp only [List.mem_cons, List.mem_append, List.not_mem_nil, or_false] at member
  rcases member with rfl | member | rfl | rfl | member | rfl
  · exact nofun
  · rcases idle_words plain t member with kind | ⟨kind, _⟩ <;> simp [kind]
  · exact nofun
  · exact nofun
  · exact bare t member
  · exact nofun

theorem fills_castTo (plain : CType.Plain cType) (fills : Slot.Fills 0 a.tokens) :
    Slot.Fills 0 (a.castTo o cType).tokens := by
  have closing (d : Nat) {rest : List Token} (behind : Slot.Fills d rest) :
      Slot.Fills (d + 1) (Token.beyond o (.closeParen, Text.ofString ")") :: rest) :=
    Slot.fills_cons.2 ⟨rfl, by omega, behind⟩
  have opening (d : Nat) {rest : List Token} (behind : Slot.Fills (d + 1) rest) :
      Slot.Fills d (Token.beyond o (.openParen, Text.ofString "(") :: rest) :=
    Slot.fills_cons.2 ⟨rfl, fun _ => ⟨nofun, nofun⟩, behind⟩
  rw [castTo_tokens]
  refine opening 0 (Slot.fills_idle (idle_words plain) (closing 0 (opening 0 ?_)))
  have whole := fills.append (closing 0 (Slot.fills_nil.2 rfl))
  rwa [Nat.zero_add] at whole

theorem scan_castTo (plain : CType.Plain cType) (fills : Slot.Fills 0 a.tokens) :
    Mention.scan .standard none (a.castTo o cType).tokens =
      Mention.scan .standard none a.tokens := by
  have unlisted : ∀ t ∈ (CType.opening cType).words.map (Token.beyond o), t.kind = .ident →
      PrinterTable.standard.find? t.lexeme = none := by
    intro t member ident
    obtain ⟨word, inside, rfl⟩ := List.mem_map.1 member
    simp only [CType.opening, List.cons_append, List.nil_append, List.mem_append, List.mem_cons,
      List.not_mem_nil, or_false] at inside
    rcases inside with rfl | inside | rfl | rfl
    · cases ident
    · exact plain.unlisted word inside
    · cases ident
    · cases ident
  have last : Mention.previousOf none ((CType.opening cType).words.map (Token.beyond o)) =
      some (Token.beyond o (.openParen, Text.ofString "(")) := by
    have code : Token.code [Token.beyond o (.openParen, Text.ofString "(")] =
        [Token.beyond o (.openParen, Text.ofString "(")] := rfl
    rw [Mention.previousOf, CType.opening_words, List.map_append, Token.code_append, List.map_singleton, code,
      List.getLast?_concat]
    rfl
  have free : (some (Token.beyond o (.openParen, Text.ofString "("))).any Mention.declares =
      (none : Option Token).any Mention.declares := by
    simp [Mention.declares, Token.beyond, Token.isPunct]
  rw [castTo]
  dsimp only
  rw [Mention.scan_unlisted unlisted, last]
  change Mention.scan .standard _ (a.tokens ++ Token.beyond o (.closeParen, Text.ofString ")") :: []) = _
  rw [Mention.scan_append_fills fills (.inr rfl), Mention.scan_previous free, Mention.scan,
    List.append_nil]

/-- What is asked of the arguments of a call when some of them are cast. -/
theorem recastAll_like (o : Nat) (args : List Argument) {types : List (Option Text)}
    (known : ∀ cType, some cType ∈ types → CType.Plain cType) (plain : ∀ a ∈ args, a.Plain)
    (fills : ∀ a ∈ args, Slot.Fills 0 a.tokens) :
    (∀ a ∈ recastAll o args types, a.Plain ∧ Slot.Fills 0 a.tokens) ∧
      (recastAll o args types).flatMap (fun a => Mention.scan .standard none a.tokens) =
        args.flatMap fun a => Mention.scan .standard none a.tokens := by
  induction args generalizing types with
  | nil => cases types <;> simp [recastAll]
  | cons a args ih =>
      cases types with
      | nil => exact ⟨fun b member => ⟨plain b member, fills b member⟩, rfl⟩
      | cons cType types =>
          obtain ⟨later, scans⟩ := ih
            (fun cType member => known cType (List.mem_cons_of_mem _ member))
            (fun b member => plain b (List.mem_cons_of_mem a member))
            (fun b member => fills b (List.mem_cons_of_mem a member))
          have bare := plain a List.mem_cons_self
          have inner := fills a List.mem_cons_self
          have here : (a.recast o cType).Plain ∧ Slot.Fills 0 (a.recast o cType).tokens ∧
              Mention.scan .standard none (a.recast o cType).tokens =
                Mention.scan .standard none a.tokens := by
            cases cType with
            | none => exact ⟨bare, inner, rfl⟩
            | some cType =>
                have type := known cType List.mem_cons_self
                exact ⟨plain_castTo type bare, fills_castTo type inner, scan_castTo type inner⟩
          rw [recastAll]
          refine ⟨?_, ?_⟩
          · intro b member
            rcases List.mem_cons.1 member with rfl | member
            · exact ⟨here.1, here.2.1⟩
            · exact later b member
          · rw [List.flatMap_cons, List.flatMap_cons, here.2.2, scans]

end Argument

theorem Call.castTypes_plain (c : Call) (source : Source) {identifier : Text}
    (named : PrinterTable.standard.find? identifier = some c.printer) :
    ∀ cType, some cType ∈ (c.check source).castTypes → CType.Plain cType := by
  intro cType member
  unfold Verdict.castTypes at member
  split at member
  · cases member
  · rw [check_call] at member
    simp only [List.mem_append, List.mem_cons, reduceCtorEq, false_or] at member
    rcases member with member | member
    · rw [← List.map_uncurry_zip_eq_zipWith] at member
      obtain ⟨⟨a, cType'⟩, listed, made⟩ := List.mem_map.1 member
      have plain := CType.fixed_plain named cType' (List.of_mem_zip listed).2
      simp only [Function.uncurry, Argument.fixedCast?] at made
      split at made
      · cases made
        exact plain
      · cases made
    · obtain ⟨p, _, made⟩ := List.mem_map.1 member
      unfold Pair.castType? at made
      split at made
      · cases made
      · exact (CType.demand_plain made).1

/-- The patch writes the casts of a call into it, and changes none of the mentions in it. -/
structure Site.CastPatch (s : Site) (source : Source) (o : Nat) (slots slots' : List Slot)
    (p : Patch) : Prop where
  name : p.name = s.name
  name' : p.name' = s.name
  opening : p.opening = s.opening
  between : p.Between slots slots'
  proper : Slot.Proper slots'
  arguments : Slot.arguments slots' = ((s.call slots).recast o source).arguments
  written : Slot.written slots' = Castable.recastTokens o
    ((s.call slots).check source).castArguments (Slot.written slots)
  mentions : slots'.flatMap (fun slot => Mention.scan .standard none slot.tokens) =
    slots.flatMap fun slot => Mention.scan .standard none slot.tokens

/-- The casts of any call can be written into it. -/
theorem Site.exists_castPatch {s : Site} (tracked : s.Tracked .standard) (source : Source) (o : Nat)
    {slots : List Slot} (listed : Slot.Listed 0 slots) (proper : Slot.Proper slots)
    (plain : ∀ t ∈ Slot.written slots, t.kind ≠ .comment) (distinct : (Slot.written slots).Nodup) :
    ∃ p slots', s.CastPatch source o slots slots' p := by
  have casts := Call.castArguments_eq (s.call slots) source
  have known := Call.castTypes_plain (s.call slots) source tracked.listed
  cases bare : Slot.areBare slots with
  | true =>
      have empty : Slot.arguments slots = [] := by simp [Slot.arguments, bare]
      refine ⟨.ofSlots s.name s.name s.opening slots slots tracked.ident tracked.ident rfl
        tracked.opens listed listed rfl, slots, rfl, rfl, rfl, Patch.ofSlots_between, proper, ?_, ?_,
        rfl⟩
      · rw [Call.recast, call, empty]
        cases ((s.call slots).check source).castTypes <;> rfl
      · rw [casts, call, empty]
        exact (Castable.recastTokens_nil _).symm
  | false =>
      have trimmed : slots.map (·.tokens) = (Slot.arguments slots).map (·.tokens) := by
        rw [Slot.arguments_tokens proper bare]
        refine List.map_congr_left fun slot member => ?_
        exact (Token.trimComments_plain fun t inside =>
          plain t (Slot.subset_written member inside)).symm
      have length : (Slot.arguments slots).length = slots.length := by
        have same := congrArg List.length trimmed
        simpa using same.symm
      have inSlot : ∀ a ∈ Slot.arguments slots, ∃ slot ∈ slots, slot.tokens = a.tokens := by
        intro a member
        have tokens := List.mem_map_of_mem (f := (·.tokens)) member
        rw [← trimmed] at tokens
        exact List.mem_map.1 tokens
      obtain ⟨like, scans⟩ := Argument.recastAll_like o (Slot.arguments slots) known
        (fun a member t inside => by
          obtain ⟨slot, inner, tokens⟩ := inSlot a member
          exact plain t (Slot.subset_written inner (tokens ▸ inside)))
        (fun a member => by
          obtain ⟨slot, inner, tokens⟩ := inSlot a member
          exact tokens ▸ listed.fills slot inner)
      have count := (Argument.recastAll_length (o := o) (Slot.arguments slots)
        ((s.call slots).check source).castTypes).trans length
      have listed' := Slot.refill_listed listed count fun a member => (like a member).2
      refine ⟨.ofSlots s.name s.name s.opening slots _ tracked.ident tracked.ident rfl
        tracked.opens listed listed' (Slot.refill_closing count s.opening), _, rfl, rfl, rfl,
        Patch.ofSlots_between, Slot.refill_proper fun a member => (like a member).1,
        Slot.arguments_refill count fun a member => (like a member).1, ?_, ?_⟩
      · rw [casts]
        exact (Slot.recastTokens_written o trimmed distinct _).symm
      · rw [Slot.flatMap_refill count (Mention.scan .standard none), scans,
          ← Slot.flatMap_refill length (Mention.scan .standard none), Slot.refill_self trimmed]

end FormatLint
