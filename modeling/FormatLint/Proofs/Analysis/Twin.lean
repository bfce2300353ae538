import FormatLint.Proofs.Analysis.Like
import FormatLint.Proofs.Analysis.Sorting
import FormatLint.Proofs.Cast.Operand

/-!
The same tokens at other places. `Mention.scan_twin` says that the analysis finds the same in two
lists of tokens that differ in nothing but their places.
-/

namespace FormatLint

namespace Token

structure Alike (t t' : Token) : Prop where
  kind : t'.kind = t.kind
  lexeme : t'.lexeme = t.lexeme

theorem Alike.isPunct {t t' : Token} (same : Alike t t') (spellings : List Text) :
    t'.isPunct spellings = t.isPunct spellings := by
  simp only [Token.isPunct, same.kind, same.lexeme]

/-- The token covers its text. -/
def Sized (t : Token) : Prop := t.span.stop.offset = t.span.start.offset + t.lexeme.length

/-- The tokens are a listed pair of the same kind and spelling. Places inside literals count, so these
have to cover their text. -/
structure Twin (pairs : List (Token × Token)) (t t' : Token) : Prop where
  listed : (t, t') ∈ pairs
  kind : t'.kind = t.kind
  lexeme : t'.lexeme = t.lexeme
  solid : t.span.start.offset < t.span.stop.offset
  solid' : t'.span.start.offset < t'.span.stop.offset
  literal : t.kind = .string → t.Sized ∧ t'.Sized

end Token

/-- The place `n` glyphs from an end of either token stands in it. -/
def Places.Inside (t : Token × Token) (n : Nat) : Prop :=
  t.1.span.start.offset + n < t.1.span.stop.offset ∧
    t.2.span.start.offset + n < t.2.span.stop.offset

/-- Places in the same tokens: spans that begin as far from the start of one token, and end as far
from the end of one token. -/
def Places.along (pairs : List (Token × Token)) : Places where
  Match p p' :=
    (∃ t ∈ pairs, ∃ n, Inside t n ∧ p.start.offset = t.1.span.start.offset + n ∧
      p'.start.offset = t.2.span.start.offset + n) ∧
    ∃ t ∈ pairs, ∃ n, Inside t n ∧ p.stop.offset + n = t.1.span.stop.offset ∧
      p'.stop.offset + n = t.2.span.stop.offset
  through first last := ⟨first.1, last.2⟩

open Token (Twin Alike)

variable {pairs : List (Token × Token)}

namespace Token.Twin

variable {t t' u u' : Token}

theorem span (first : Twin pairs t t') (last : Twin pairs u u') :
    (Places.along pairs).Match (t.span.through u.span) (t'.span.through u'.span) :=
  ⟨⟨_, first.listed, 0, ⟨first.solid, first.solid'⟩, rfl, rfl⟩,
    _, last.listed, 0, ⟨last.solid, last.solid'⟩, rfl, rfl⟩

theorem isComment (twin : Twin pairs t t') : t'.isComment = t.isComment := by
  simp only [Token.isComment, twin.kind]

theorem alike (twin : Twin pairs t t') : Alike t t' := ⟨twin.kind, twin.lexeme⟩

theorem isPunct (twin : Twin pairs t t') (spellings : List Text) :
    t'.isPunct spellings = t.isPunct spellings := twin.alike.isPunct spellings

theorem endsStatement (twin : Twin pairs t t') : Slot.endsStatement t' = Slot.endsStatement t := by
  simp only [Slot.endsStatement, twin.kind, twin.isPunct]

theorem declares (twin : Twin pairs t t') : Mention.declares t' = Mention.declares t := by
  simp only [Mention.declares, twin.kind, twin.lexeme, twin.isPunct]

end Token.Twin

theorem forall₂_dropWhile {α β : Type} {R : α → β → Prop} {p : α → Bool} {q : β → Bool}
    (same : ∀ a b, R a b → q b = p a) {first : List α} {second : List β}
    (like : List.Forall₂ R first second) :
    List.Forall₂ R (first.dropWhile p) (second.dropWhile q) := by
  induction like with
  | nil => exact .nil
  | @cons a b first second here later ih =>
      rw [List.dropWhile_cons, List.dropWhile_cons, same a b here]
      split
      · exact ih
      · exact .cons here later

theorem forall₂_takeWhile {α β : Type} {R : α → β → Prop} {p : α → Bool} {q : β → Bool}
    (same : ∀ a b, R a b → q b = p a) {first : List α} {second : List β}
    (like : List.Forall₂ R first second) :
    List.Forall₂ R (first.takeWhile p) (second.takeWhile q) := by
  induction like with
  | nil => exact .nil
  | @cons a b first second here _ ih =>
      rw [List.takeWhile_cons, List.takeWhile_cons, same a b here]
      split
      · exact .cons here ih
      · exact .nil

namespace Token

variable {tokens tokens' : List Token}

theorem trimComments_twin (like : List.Forall₂ (Twin pairs) tokens tokens') :
    List.Forall₂ (Twin pairs) (trimComments tokens) (trimComments tokens') := by
  have comment (t t' : Token) (twin : Twin pairs t t') : t'.isComment = t.isComment :=
    twin.isComment
  exact List.rel_reverse (forall₂_dropWhile comment
    (List.rel_reverse (forall₂_dropWhile comment like)))

theorem code_twin (like : List.Forall₂ (Twin pairs) tokens tokens') :
    List.Forall₂ (Twin pairs) (code tokens) (code tokens') := by
  refine List.rel_filter ?_ like
  intro t t' twin
  simp only [twin.isComment]

end Token

namespace Slot

structure Twin (pairs : List (Token × Token)) (s s' : Slot) : Prop where
  tokens : List.Forall₂ (Token.Twin pairs) s.tokens s'.tokens
  stop : Token.Twin pairs s.stop s'.stop

theorem consFirst_twin {t t' : Token} {slots slots' : List Slot} (here : Token.Twin pairs t t')
    (like : List.Forall₂ (Twin pairs) slots slots') :
    List.Forall₂ (Twin pairs) (consFirst t slots) (consFirst t' slots') := by
  cases like with
  | nil => exact .nil
  | cons first later => exact .cons ⟨.cons here first.tokens, first.stop⟩ later

theorem optionRel_map {α β γ δ : Type} {R : α → β → Prop} {S : γ → δ → Prop} {f : α → γ} {g : β → δ}
    {a : Option α} {b : Option β} (like : Option.Rel R a b)
    (step : ∀ x y, R x y → S (f x) (g y)) : Option.Rel S (a.map f) (b.map g) := by
  cases like with
  | none => exact .none
  | some here => exact .some (step _ _ here)

theorem cut_twin {d : Nat} {tokens tokens' : List Token}
    (like : List.Forall₂ (Token.Twin pairs) tokens tokens') :
    Option.Rel (List.Forall₂ (Twin pairs)) (cut d tokens) (cut d tokens') := by
  induction like generalizing d with
  | nil => exact .none
  | @cons t t' tokens tokens' here _ ih =>
      have depth : depthAfter d t' = depthAfter d t := by simp only [depthAfter, here.kind]
      rw [cut, cut, here.endsStatement, here.kind, depth]
      split
      · exact .none
      · split
        · exact .some (.cons ⟨.nil, here⟩ .nil)
        · split
          · exact optionRel_map ih fun _ _ later => .cons ⟨.nil, here⟩ later
          · exact optionRel_map ih fun _ _ later => consFirst_twin here later

theorem trimmed_twin {s s' : Slot} (twin : Twin pairs s s') :
    List.Forall₂ (Token.Twin pairs) s.trimmed s'.trimmed := Token.trimComments_twin twin.tokens

theorem trimmed_nil_iff {s s' : Slot} (twin : Twin pairs s s') :
    s'.trimmed = [] ↔ s.trimmed = [] := by
  have like := trimmed_twin twin
  rw [← List.length_eq_zero_iff, ← List.length_eq_zero_iff, like.length_eq]

theorem areBare_twin {slots slots' : List Slot} (like : List.Forall₂ (Twin pairs) slots slots') :
    areBare slots' = areBare slots := by
  cases like with
  | nil => rfl
  | cons first later =>
      cases later with
      | nil =>
          simp only [areBare, trimmed_nil_iff first]
      | cons => rfl

end Slot

namespace Cast

theorem isPostfix_alike {stack : List Text} {tokens tokens' : List Token}
    (like : List.Forall₂ Alike tokens tokens') :
    isPostfix stack tokens' = isPostfix stack tokens := by
  fun_induction isPostfix stack tokens generalizing tokens' with
  | case1 =>
      cases like
      rw [isPostfix]
  | case2 =>
      cases like
      rw [isPostfix]
  | case3 _ _ _ _ _ opens ih =>
      cases like with
      | cons here later =>
          rw [isPostfix_inside, here.lexeme, opens]
          exact ih later
  | case4 _ _ _ opens ih =>
      cases like with
      | cons here later =>
          rw [isPostfix_inside, here.lexeme, opens, if_pos rfl]
          exact ih later
  | case5 _ _ _ _ opens awaits ih =>
      cases like with
      | cons here later =>
          rw [isPostfix_inside, here.lexeme, opens, if_neg awaits]
          exact ih later
  | case6 _ _ opens ih =>
      cases like with
      | cons here later =>
          rw [isPostfix_behind, here.kind, if_pos opens]
          exact ih later
  | case7 _ _ paren bracket ih =>
      cases like with
      | cons here later =>
          rw [isPostfix_behind, here.kind, if_neg paren, here.isPunct, if_pos bracket]
          exact ih later
  | case8 _ _ paren bracket increment ih =>
      cases like with
      | cons here later =>
          rw [isPostfix_behind, here.kind, if_neg paren, here.isPunct, if_neg bracket,
            here.isPunct, if_pos increment]
          exact ih later
  | case9 _ paren bracket increment access =>
      cases like with
      | cons here later =>
          cases later
          rw [isPostfix_behind, here.kind, if_neg paren, here.isPunct, if_neg bracket,
            here.isPunct, if_neg increment, here.isPunct, if_pos access]
  | case10 _ paren bracket increment access _ _ ih =>
      cases like with
      | cons here later =>
          cases later with
          | cons next later =>
              rw [isPostfix_behind, here.kind, if_neg paren, here.isPunct, if_neg bracket,
                here.isPunct, if_neg increment, here.isPunct, if_pos access]
              dsimp only
              rw [next.kind, ih later]
  | case11 _ _ paren bracket increment access =>
      cases like with
      | cons here later =>
          rw [isPostfix_behind, here.kind, if_neg paren, here.isPunct, if_neg bracket,
            here.isPunct, if_neg increment, here.isPunct, if_neg access]

theorem isPrimary_alike {tokens tokens' : List Token}
    (like : List.Forall₂ Alike tokens tokens') : isPrimary tokens' = isPrimary tokens := by
  cases like with
  | nil => rfl
  | @cons t t' rest rest' here later =>
      have strings : rest'.all (·.kind = .string) = rest.all (·.kind = .string) :=
        all_eq_of_forall₂ (fun t t' same => by simp only [same.kind]) later
      have sameEnd : rest'.isEmpty = rest.isEmpty := by
        cases later <;> rfl
      rw [isPrimary, isPrimary, here.kind, strings, sameEnd, isPostfix_alike later,
        isPostfix_alike later]

theorem isTypeWord_alike (t t' : Token) (same : Alike t t') : isTypeWord t' = isTypeWord t := by
  simp only [isTypeWord, same.kind, same.isPunct]

theorem ofTokens?_alike {opening opening' : Token} {tokens tokens' : List Token}
    (like : List.Forall₂ Alike tokens tokens') :
    (ofTokens? opening' tokens').map type = (ofTokens? opening tokens).map type := by
  have words := forall₂_takeWhile isTypeWord_alike like
  have spelled : (tokens'.takeWhile isTypeWord).map (·.lexeme) =
      (tokens.takeWhile isTypeWord).map (·.lexeme) :=
    map_eq_of_forall₂ (fun t t' same => same.lexeme) words
  have first : (tokens'.takeWhile isTypeWord).head?.any (·.kind = .ident) =
      (tokens.takeWhile isTypeWord).head?.any (·.kind = .ident) := by
    generalize tokens.takeWhile isTypeWord = front at words
    generalize tokens'.takeWhile isTypeWord = front' at words
    cases words with
    | nil => rfl
    | cons here _ => simp [here.kind]
  have rest := forall₂_dropWhile isTypeWord_alike like
  unfold ofTokens?
  dsimp only
  rw [spelled, first]
  generalize tokens.dropWhile isTypeWord = back at rest
  generalize tokens'.dropWhile isTypeWord = back' at rest
  cases rest with
  | nil => rfl
  | cons closing operand =>
      have operator (t t' : Token) (same : Alike t t') :
          t'.isPunct unaryOperators = t.isPunct unaryOperators := same.isPunct _
      dsimp only
      rw [closing.kind, isOperand, isOperand,
        isPrimary_alike (forall₂_dropWhile operator operand)]
      split <;> rfl

end Cast

namespace Located

/-- The glyphs are the same one, in the same place of one token. -/
structure Twin (pairs : List (Token × Token)) (g g' : Located) : Prop where
  glyph : g'.glyph = g.glyph
  place : ∃ t ∈ pairs, ∃ n m, g.position.offset = t.1.span.start.offset + n ∧
    g'.position.offset = t.2.span.start.offset + n ∧
    g.position.offset + (m + 1) = t.1.span.stop.offset ∧
    g'.position.offset + (m + 1) = t.2.span.stop.offset

theorem ofText_twin {t t' : Token} (listed : (t, t') ∈ pairs) {text before : Text}
    (sized : t.Sized) (sized' : t'.Sized) (whole : t.lexeme = before ++ text)
    (whole' : t'.lexeme = before ++ text) {p p' : Position}
    (start : p.offset = t.span.start.offset + before.length)
    (start' : p'.offset = t'.span.start.offset + before.length) :
    List.Forall₂ (Twin pairs) (ofText p text) (ofText p' text) := by
  induction text generalizing before p p' with
  | nil => exact .nil
  | cons g text ih =>
      have stop : p.offset + (text.length + 1) = t.span.stop.offset := by
        rw [sized, whole, start]
        simp only [List.length_append, List.length_cons]
        omega
      have stop' : p'.offset + (text.length + 1) = t'.span.stop.offset := by
        rw [sized', whole', start']
        simp only [List.length_append, List.length_cons]
        omega
      refine .cons ⟨rfl, _, listed, before.length, text.length, start, start', stop, stop'⟩ ?_
      have next : t.lexeme = (before ++ [g]) ++ text := by simp [whole]
      refine ih next (by simp [whole']) ?_ ?_
      · rw [Position.step_offset, start, List.length_append, List.length_singleton]
        omega
      · rw [Position.step_offset, start', List.length_append, List.length_singleton]
        omega

theorem span_twin {whole whole' : Span} (outer : (Places.along pairs).Match whole whole')
    {content content' : List Located} (like : List.Forall₂ (Twin pairs) content content') :
    (Places.along pairs).Match (span whole content) (span whole' content') := by
  have first := forall₂_head? like
  have last := forall₂_getLast? like
  unfold span
  generalize content.head? = f at first
  generalize content'.head? = f' at first
  generalize content.getLast? = l at last
  generalize content'.getLast? = l' at last
  cases first with
  | none => exact outer
  | some first =>
      cases last with
      | none => exact outer
      | some last =>
          obtain ⟨t, listed, n, m, start, start', stop, stop'⟩ := first.place
          obtain ⟨u, listed', k, l, begins, begin', ends, end'⟩ := last.place
          refine ⟨⟨t, listed, n, ⟨by omega, by omega⟩, start, start'⟩,
            u, listed', l, ⟨by omega, by omega⟩, ?_, ?_⟩
          · dsimp only
            rw [Position.step_offset]
            omega
          · dsimp only
            rw [Position.step_offset]
            omega

theorem text_twin {content content' : List Located}
    (like : List.Forall₂ (Twin pairs) content content') : text content' = text content := by
  exact map_eq_of_forall₂ (fun g g' same => same.glyph) like

end Located

namespace Token

theorem literalBody_twin {t t' : Token} (twin : Twin pairs t t') (literal : t.kind = .string) :
    List.Forall₂ (Located.Twin pairs) t.literalBody t'.literalBody := by
  obtain ⟨sized, sized'⟩ := twin.literal literal
  have content : List.Forall₂ (Located.Twin pairs) (Located.ofText t.span.start t.lexeme)
      (Located.ofText t'.span.start t'.lexeme) := by
    rw [twin.lexeme]
    exact Located.ofText_twin twin.listed sized sized' (List.nil_append _).symm twin.lexeme rfl rfl
  have dropped := forall₂_dropWhile (p := fun g => decide (g.glyph ≠ .char '"'))
    (q := fun g => decide (g.glyph ≠ .char '"')) (fun g g' like => by rw [like.glyph]) content
  unfold literalBody
  generalize (Located.ofText t.span.start t.lexeme).dropWhile _ = inner at dropped
  generalize (Located.ofText t'.span.start t'.lexeme).dropWhile _ = inner' at dropped
  rw [List.dropLast_eq_take, List.dropLast_eq_take, List.length_tail, List.length_tail,
    dropped.length_eq]
  exact List.forall₂_take _ (by simpa using List.forall₂_drop 1 dropped)

end Token

namespace FormatString

theorem place_twin {whole whole' : Span} (outer : (Places.along pairs).Match whole whole')
    {content content' : List Located} (like : List.Forall₂ (Located.Twin pairs) content content')
    (start : Nat) (pieces : List Piece) :
    List.Forall₂ (fun p p' => p'.piece = p.piece ∧ p'.start = p.start ∧
        (Places.along pairs).Match p.span p'.span)
      (PlacedPiece.place whole start content pieces)
      (PlacedPiece.place whole' start content' pieces) := by
  induction pieces generalizing start content content' with
  | nil => exact .nil
  | cons piece pieces ih =>
      exact .cons ⟨rfl, rfl, Located.span_twin outer (List.forall₂_take _ like)⟩
        (ih (List.forall₂_drop _ like) _)

theorem literalBodies_twin {a a' : Argument} (like : List.Forall₂ (Token.Twin pairs) a.code a'.code)
    (strings : ∀ t ∈ a.code, t.kind = .string) :
    List.Forall₂ (List.Forall₂ (Located.Twin pairs)) a.literalBodies a'.literalBodies := by
  unfold Argument.literalBodies
  rw [List.forall₂_map_left_iff, List.forall₂_map_right_iff]
  exact ((List.forall₂_and_left _ _).2 ⟨strings, like⟩).imp fun _ _ same =>
    Token.literalBody_twin same.2 same.1

theorem bodyStarts_twin (total : Nat) {bodies bodies' : List (List Located)}
    (like : List.Forall₂ (List.Forall₂ (Located.Twin pairs)) bodies bodies') :
    Argument.bodyStarts total bodies' = Argument.bodyStarts total bodies := by
  induction like generalizing total with
  | nil => rfl
  | cons here _ ih => rw [Argument.bodyStarts, Argument.bodyStarts, ih, here.length_eq]

theorem ofArgument?_twin {a a' : Argument} (span : (Places.along pairs).Match a.span a'.span)
    (like : List.Forall₂ (Token.Twin pairs) a.code a'.code) :
    Option.Rel (Places.along pairs).Formats (ofArgument? a) (ofArgument? a') := by
  have literal : a'.isStringLiteral = a.isStringLiteral := by
    unfold Argument.isStringLiteral
    exact all_eq_of_forall₂ (fun t t' same => by simp only [same.kind]) like
  unfold ofArgument?
  rw [literal]
  split
  · rename_i strings
    have bodies := literalBodies_twin like (by simpa [Argument.isStringLiteral] using strings)
    have content : List.Forall₂ (Located.Twin pairs) a.literalBodies.flatten
        a'.literalBodies.flatten := List.rel_flatten bodies
    refine .some ⟨Located.text_twin content, ?_, span, ?_⟩
    · change (Argument.bodyStarts 0 a'.literalBodies).tail = _
      rw [bodyStarts_twin 0 bodies]
      rfl
    · dsimp only
      rw [Located.text_twin content]
      exact place_twin span content 0 _
  · exact .none

end FormatString

namespace Argument

def Twin (pairs : List (Token × Token)) (a a' : Argument) : Prop :=
  List.Forall₂ (Token.Twin pairs) a.tokens a'.tokens

variable {a a' : Argument}

theorem Twin.arguments (twin : Twin pairs a a') : (Places.along pairs).Arguments a a' := by
  obtain ⟨tokens, nonempty⟩ := a
  obtain ⟨tokens', nonempty'⟩ := a'
  have last : Token.Twin pairs (tokens.getLast nonempty) (tokens'.getLast nonempty') := by
    have ends : Option.Rel (Token.Twin pairs) tokens.getLast? tokens'.getLast? :=
      forall₂_getLast? twin
    rw [List.getLast?_eq_some_getLast nonempty, List.getLast?_eq_some_getLast nonempty'] at ends
    cases ends with
    | some last => exact last
  have span : (Places.along pairs).Match (span ⟨tokens, nonempty⟩) (span ⟨tokens', nonempty'⟩) := by
    cases twin with
    | nil => exact absurd rfl nonempty
    | cons first later => exact first.span last
  exact ⟨span, FormatString.ofArgument?_twin span (Token.code_twin twin)⟩

/-- Only the kinds and spellings of tokens count for casts. -/
theorem castType?_alike (like : List.Forall₂ Alike a.code a'.code) :
    a'.castType? = a.castType? := by
  unfold Argument.castType? cast?
  generalize a.code = code at like
  generalize a'.code = code' at like
  cases like with
  | nil => rfl
  | cons opening rest =>
      dsimp only
      rw [opening.kind]
      split
      · exact Cast.ofTokens?_alike rest
      · rfl

theorem Twin.castType? (twin : Twin pairs a a') : a'.castType? = a.castType? :=
  castType?_alike ((Token.code_twin twin).imp fun _ _ same => same.alike)

end Argument

structure Call.Twin (pairs : List (Token × Token)) (c c' : Call) : Prop where
  printer : c'.printer = c.printer
  name : Token.Twin pairs c.name c'.name
  opening : Token.Twin pairs c.opening c'.opening
  closing : Token.Twin pairs c.closing c'.closing
  arguments : List.Forall₂ (Argument.Twin pairs) c.arguments c'.arguments

theorem Call.Twin.check {c c' : Call} (twin : Call.Twin pairs c c') (source source' : Source) :
    (Places.along pairs).SameVerdicts (c.check source) (c'.check source') := by
  refine check_same (.of_arguments twin.printer (twin.opening.span twin.closing)
    (twin.arguments.imp fun _ _ argument => argument.arguments)) ?_
  have arguments := twin.arguments
  generalize c.arguments = front at arguments
  generalize c'.arguments = back at arguments
  induction arguments with
  | nil => rfl
  | cons argument _ ih => rw [List.map_cons, List.map_cons, ih, Argument.Twin.castType? argument]

namespace Slot

variable {slots slots' : List Slot}

theorem firstEmpty?_twin {before before' : Token} (front : Token.Twin pairs before before')
    (like : List.Forall₂ (Twin pairs) slots slots') :
    Option.Rel (fun b b' => Token.Twin pairs b.1 b'.1 ∧ Token.Twin pairs b.2 b'.2)
      (firstEmpty? before slots) (firstEmpty? before' slots') := by
  induction like generalizing before before' with
  | nil => exact .none
  | @cons s s' _ _ here _ ih =>
      rw [firstEmpty?, firstEmpty?]
      simp only [trimmed_nil_iff here]
      split
      · exact .some ⟨front, here.stop⟩
      · exact ih here.stop

theorem closing_twin {opening opening' : Token} (front : Token.Twin pairs opening opening')
    (like : List.Forall₂ (Twin pairs) slots slots') :
    Token.Twin pairs (closing opening slots) (closing opening' slots') := by
  have last := forall₂_getLast? like
  unfold closing
  generalize slots.getLast? = l at last
  generalize slots'.getLast? = l' at last
  cases last with
  | none => exact front
  | some last => exact last.stop

theorem arguments_twin (like : List.Forall₂ (Twin pairs) slots slots') :
    List.Forall₂ (Argument.Twin pairs)
      (slots.filterMap fun s => Argument.ofTokens? s.trimmed)
      (slots'.filterMap fun s => Argument.ofTokens? s.trimmed) := by
  refine List.rel_filterMap ?_ like
  intro s s' twin
  unfold Argument.ofTokens?
  dsimp only
  by_cases blank : s.trimmed = []
  · rw [dif_neg (by simpa using blank), dif_neg (by simpa using (trimmed_nil_iff twin).2 blank)]
    exact .none
  · rw [dif_pos blank, dif_pos fun other => blank ((trimmed_nil_iff twin).1 other)]
    exact .some (trimmed_twin twin)

end Slot

namespace Mention

variable {table : PrinterTable} {printer : Printer} {name name' opening opening' : Token}
  {rest rest' : List Token}

theorem readCall_twin (named : Token.Twin pairs name name')
    (opens : Token.Twin pairs opening opening') (like : List.Forall₂ (Token.Twin pairs) rest rest') :
    (Places.along pairs).Mentions (Call.Twin pairs) (readCall printer name opening rest)
      (readCall printer name' opening' rest') := by
  have slots := Slot.cut_twin (d := 0) like
  unfold readCall
  generalize Slot.cut 0 rest = found at slots
  generalize Slot.cut 0 rest' = found' at slots
  cases slots with
  | none => exact .malformed ⟨rfl, rfl, .some (opens.span opens)⟩
  | @some slots slots' like =>
      have closes := Slot.closing_twin opens like
      have empty := Slot.firstEmpty?_twin opens like
      dsimp only
      rw [Slot.areBare_twin like]
      split
      · exact .call ⟨rfl, named, opens, closes, .nil⟩
      · generalize Slot.firstEmpty? opening slots = gap at empty
        generalize Slot.firstEmpty? opening' slots' = gap' at empty
        cases empty with
        | none => exact .call ⟨rfl, named, opens, closes, Slot.arguments_twin like⟩
        | some gap => exact .malformed ⟨rfl, rfl, .some (gap.1.span gap.2)⟩

theorem classify_twin {previous previous' : Option Token}
    (sameDeclares : previous'.any declares = previous.any declares)
    (named : Token.Twin pairs name name') (like : List.Forall₂ (Token.Twin pairs) rest rest') :
    (Places.along pairs).Mentions (Call.Twin pairs) (classify printer previous name rest)
      (classify printer previous' name' rest') := by
  have after := forall₂_dropWhile (p := Token.isComment) (q := Token.isComment)
    (fun _ _ twin => Token.Twin.isComment twin) like
  unfold classify
  generalize rest.dropWhile Token.isComment = next at after
  generalize rest'.dropWhile Token.isComment = next' at after
  cases after with
  | nil => exact .value
  | cons opens later =>
      dsimp only
      rw [opens.kind, sameDeclares]
      split
      · exact .value
      · split
        · exact .declared
        · exact readCall_twin named opens later

/-- The analysis finds the same in the same tokens at other places. -/
theorem scan_twin {tokens tokens' : List Token} {previous previous' : Option Token}
    (before : previous'.any declares = previous.any declares)
    (like : List.Forall₂ (Token.Twin pairs) tokens tokens') :
    List.Forall₂ ((Places.along pairs).Mentions (Call.Twin pairs)) (scan table previous tokens)
      (scan table previous' tokens') := by
  induction like generalizing previous previous' with
  | nil => exact .nil
  | @cons t t' tokens tokens' here like ih =>
      have later : List.Forall₂ ((Places.along pairs).Mentions (Call.Twin pairs))
          (scan table (if t.isComment then previous else some t) tokens)
          (scan table (if t'.isComment then previous' else some t') tokens') := by
        refine ih ?_
        rw [here.isComment]
        split
        · exact before
        · exact here.declares
      rw [scan, scan, here.kind, here.lexeme]
      split
      · split
        · exact .cons (classify_twin before here like) later
        · exact later
      · exact later

end Mention

namespace Places

/-- Matching spans come in the same order in both texts. -/
def InOrder (places : Places) : Prop :=
  ∀ ⦃p p' q q' : Span⦄, places.Match p p' → places.Match q q' →
    pairLE (p.start.offset, p.stop.offset) (q.start.offset, q.stop.offset) =
      pairLE (p'.start.offset, p'.stop.offset) (q'.start.offset, q'.stop.offset)

variable {places : Places}

theorem InOrder.sortKey (ordered : places.InOrder) {d d' e e' : Diagnostic}
    (first : places.Diagnostics d d') (second : places.Diagnostics e e') :
    pairLE d.sortKey e.sortKey = pairLE d'.sortKey e'.sortKey := by
  have here := first.place
  have there := second.place
  unfold Diagnostic.sortKey
  generalize d.primarySpan? = p at here
  generalize d'.primarySpan? = p' at here
  generalize e.primarySpan? = q at there
  generalize e'.primarySpan? = q' at there
  cases here with
  | none =>
      cases there with
      | none => rfl
      | some there =>
          rw [Bool.eq_iff_iff]
          simp [pairLE]
          omega
  | some here =>
      cases there with
      | none =>
          rw [Bool.eq_iff_iff]
          simp [pairLE]
          omega
      | some there => exact ordered here there

theorem InOrder.sort (ordered : places.InOrder) {ds ds' : List Diagnostic}
    (like : List.Forall₂ places.Diagnostics ds ds') :
    List.Forall₂ places.Diagnostics (Diagnostic.sort ds) (Diagnostic.sort ds') :=
  forall₂_sortByPair like fun _ _ _ _ first second => ordered.sortKey first second

end Places

/-- Pairs of tokens that stand in the same order in two texts. -/
def Aligned (pairs : List (Token × Token)) : Prop :=
  pairs.Pairwise fun t u => t.1.span.stop.offset ≤ u.1.span.start.offset ∧
    t.2.span.stop.offset ≤ u.2.span.start.offset

namespace Aligned

open Places (Inside)

theorem order (aligned : Aligned pairs) {t u : Token × Token} (front : t ∈ pairs)
    (back : u ∈ pairs) : t = u ∨
      (t.1.span.stop.offset ≤ u.1.span.start.offset ∧
        t.2.span.stop.offset ≤ u.2.span.start.offset) ∨
      u.1.span.stop.offset ≤ t.1.span.start.offset ∧
        u.2.span.stop.offset ≤ t.2.span.start.offset := by
  obtain ⟨earlier, later, rfl⟩ := List.append_of_mem front
  obtain ⟨_, after, before⟩ := List.pairwise_append.1 aligned
  rcases List.mem_append.1 back with back | back
  · exact .inr (.inr (before u back t List.mem_cons_self))
  · rcases List.mem_cons.1 back with rfl | back
    · exact .inl rfl
    · exact .inr (.inl (List.rel_of_pairwise_cons after back))

/-- Places in tokens come in the same order in both texts. -/
theorem starts (aligned : Aligned pairs) {t u : Token × Token} (front : t ∈ pairs)
    (back : u ∈ pairs) {n m : Nat} (inside : Inside t n) (inside' : Inside u m) :
    t.1.span.start.offset + n < u.1.span.start.offset + m ↔
      t.2.span.start.offset + n < u.2.span.start.offset + m := by
  unfold Inside at inside inside'
  rcases aligned.order front back with rfl | ⟨before, before'⟩ | ⟨behind, behind'⟩ <;> omega

theorem stops (aligned : Aligned pairs) {t u : Token × Token} (front : t ∈ pairs)
    (back : u ∈ pairs) {n m : Nat} (inside : Inside t n) (inside' : Inside u m) :
    t.1.span.stop.offset + m < u.1.span.stop.offset + n ↔
      t.2.span.stop.offset + m < u.2.span.stop.offset + n := by
  unfold Inside at inside inside'
  rcases aligned.order front back with rfl | ⟨before, before'⟩ | ⟨behind, behind'⟩ <;> omega

theorem inOrder (aligned : Aligned pairs) : (Places.along pairs).InOrder := by
  rintro p p' q q' ⟨⟨t, listed, n, inside, start, start'⟩, u, listed', m, inside', stop, stop'⟩
    ⟨⟨v, member, k, within, begins, begin'⟩, w, member', l, within', ends, end'⟩
  have one := aligned.starts listed member inside within
  have two := aligned.starts member listed within inside
  have three := aligned.stops listed' member' inside' within'
  have four := aligned.stops member' listed' within' inside'
  rw [Bool.eq_iff_iff, pairLE_iff, pairLE_iff]
  omega

end Aligned

end FormatLint
