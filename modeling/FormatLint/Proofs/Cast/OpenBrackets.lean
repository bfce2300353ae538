import FormatLint.Proofs.Call.Balance
import FormatLint.Proofs.Token.Spelled

/-!
The brackets that stay open behind an argument list, properly nested or not. They are known from the
brackets in it, so that argument lists with the same brackets can stand for each other:
`Cast.Swap.even_of_brackets`.
-/

namespace FormatLint

namespace Head

/-- A bracket is a lexeme of its own. -/
theorem Form.bracket {kind : TokenKind} {word rest : Text} (form : Form kind word rest) {g : Glyph}
    (listed : g ∈ Text.ofString "()[]") (alone : word = [g]) : kind = glyphKind g := by
  have marks : ∀ g ∈ Text.ofString "()[]", isWordStart g = false ∧ isAsciiDigit g = false ∧
      g ≠ .char '.' ∧ [g] ∉ longPunctuators := by
    decide
  obtain ⟨noWord, noDigit, noPeriod, short⟩ := marks g listed
  cases form with
  | lineComment | blockComment => cases alone
  | @literal quote encoding body _ _ _ =>
      have long := congrArg List.length alone
      simp at long
      omega
  | ident start =>
      obtain ⟨rfl, _⟩ := List.cons.inj alone
      rw [noWord] at start
      cases start
  | number counted =>
      have noNumber : number? (g :: rest) = none :=
        number?_eq_none.2 ⟨noDigit, fun period => absurd period noPeriod⟩
      rw [alone, List.singleton_append, noNumber] at counted
      cases counted
  | symbol _ _ _ _ spelled =>
      rw [alone] at spelled
      obtain ⟨rfl, rfl⟩ := List.cons.inj alone
      rcases spelled with ⟨_, long⟩ | ⟨kind, _⟩
      · exact absurd long short
      · exact kind

end Head

namespace Token

def isBracket (t : Token) : Bool := (Cast.closer? t.lexeme).isSome || t.lexeme ∈ Cast.closers

theorem isBracket_eq_false_iff {t : Token} :
    t.isBracket = false ↔ Cast.closer? t.lexeme = none ∧ t.lexeme ∉ Cast.closers := by
  simp [isBracket]

/-- The token is a parenthesis if it is spelled like one, and a literal is none. -/
structure Bracketed (t : Token) : Prop where
  opening : t.kind = .openParen → t.lexeme = Text.ofString "("
  closing : t.lexeme = Text.ofString ")" → t.kind = .closeParen
  literal : t.kind = .string → t.isBracket = false

theorem bracketed_of_form {t : Token} {rest : Text} (form : Head.Form t.kind t.lexeme rest) :
    t.Bracketed := by
  refine ⟨form.delimiter.1, fun closes => ?_, fun string => ?_⟩
  · exact (form.bracket (g := .char ')') (by decide) closes).trans (by decide)
  · have other (g : Glyph) (listed : g ∈ Text.ofString "()[]") : t.lexeme ≠ [g] := fun alone => by
      have kinds : ∀ g ∈ Text.ofString "()[]", Head.glyphKind g ≠ .string := by decide
      exact kinds g listed ((form.bracket listed alone).symm.trans string)
    have opens : Cast.closer? t.lexeme = none := by
      have round : t.lexeme ≠ Text.ofString "(" := other (.char '(') (by decide)
      have square : t.lexeme ≠ Text.ofString "[" := other (.char '[') (by decide)
      rw [Cast.closer?, if_neg round, if_neg square]
    have closes : t.lexeme ∉ Cast.closers := by
      have round : t.lexeme ≠ Text.ofString ")" := other (.char ')') (by decide)
      have square : t.lexeme ≠ Text.ofString "]" := other (.char ']') (by decide)
      simpa [Cast.closers] using ⟨round, square⟩
    exact isBracket_eq_false_iff.2 ⟨opens, closes⟩

theorem bracketed_of_tokenize {file text : Text} {tokens : List Token}
    (read : tokenize file text = .ok tokens) {t : Token} (member : t ∈ tokens)
    (inside : t.kind ≠ .eof) : t.Bracketed := by
  rcases tokenize_form read member with ⟨eof, _⟩ | form
  · exact absurd eof inside
  · exact bracketed_of_form form

end Token

namespace Slot

/-- From a place inside `d` inner parentheses on the tokens never close the list that they stand in. -/
def Within : Nat → List Token → Prop
  | _, [] => True
  | d, t :: rest => (d = 0 → t.kind ≠ .closeParen) ∧ Within (depthAfter d t) rest

theorem Fills.within_append {d : Nat} {tokens rest : List Token} (fills : Fills d tokens)
    (behind : Within 0 rest) : Within d (tokens ++ rest) := by
  induction tokens generalizing d with
  | nil => rwa [fills_nil.1 fills]
  | cons t tokens ih =>
      obtain ⟨_, outer, later⟩ := fills_cons.1 fills
      exact ⟨fun zero => (outer zero).2, ih later⟩

/-- In front of the parenthesis that closes it no token closes an argument list. -/
theorem Listed.within {d : Nat} {slots : List Slot} (listed : Listed d slots) :
    Within d (written slots).dropLast := by
  induction listed with
  | @last d s fills _ =>
      have whole : Within d (s.tokens ++ []) := fills.within_append trivial
      simpa [written] using whole
  | @next d s later fills comma listed ih =>
      have nonempty : written later ≠ [] := by cases listed <;> simp [written]
      rw [written_cons, List.dropLast_append_of_ne_nil (by simp),
        List.dropLast_cons_of_ne_nil nonempty]
      refine fills.within_append ⟨fun _ => by simp [comma], ?_⟩
      have same : depthAfter 0 s.stop = 0 := by simp [depthAfter, comma]
      rwa [same]

theorem Within.code {d : Nat} {tokens : List Token} (within : Within d tokens) :
    Within d (Token.code tokens) := by
  induction tokens generalizing d with
  | nil => exact within
  | cons t tokens ih =>
      obtain ⟨outer, later⟩ := within
      cases comment : t.isComment with
      | true =>
          have kind : t.kind = .comment := by simpa [Token.isComment] using comment
          have same : depthAfter d t = d := by simp [depthAfter, kind]
          rw [same] at later
          simpa [Token.code, comment] using ih later
      | false => simpa [Token.code, comment] using ⟨outer, ih later⟩

end Slot

namespace Cast

open Slot (Within depthAfter)

/-- The marks that are awaited behind the tokens, if those of the stack are in front of them. A mark
that is not the next one to be awaited is passed over. -/
def awaited (stack : List Text) : List Token → List Text
  | [] => stack
  | t :: rest =>
    match closer? t.lexeme with
    | some closer => awaited (closer :: stack) rest
    | none =>
      match stack with
      | [] => awaited [] rest
      | mark :: outer => if t.lexeme = mark then awaited outer rest else awaited (mark :: outer) rest

theorem awaited_cons (stack : List Text) (t : Token) (rest : List Token) :
    awaited stack (t :: rest) =
      match closer? t.lexeme with
      | some closer => awaited (closer :: stack) rest
      | none =>
        match stack with
        | [] => awaited [] rest
        | mark :: outer =>
          if t.lexeme = mark then awaited outer rest else awaited (mark :: outer) rest :=
  awaited.eq_def stack (t :: rest)

theorem awaited_filter {stack : List Text} (marks : ∀ mark ∈ stack, mark ∈ closers)
    (tokens : List Token) : awaited stack (tokens.filter Token.isBracket) = awaited stack tokens := by
  induction tokens generalizing stack with
  | nil => rfl
  | cons t rest ih =>
      cases bracket : t.isBracket with
      | false =>
          obtain ⟨opens, closes⟩ := Token.isBracket_eq_false_iff.1 bracket
          rw [List.filter_cons_of_neg (by simp [bracket]), ih marks, awaited_cons, opens]
          cases stack with
          | nil => rfl
          | cons mark outer =>
              have other : t.lexeme ≠ mark := by
                rintro rfl
                exact closes (marks _ List.mem_cons_self)
              dsimp only
              rw [if_neg other]
      | true =>
          rw [List.filter_cons_of_pos bracket, awaited_cons, awaited_cons]
          cases opens : closer? t.lexeme with
          | some closer => exact ih (List.forall_mem_cons.2 ⟨closer?_mem opens, marks⟩)
          | none =>
              cases stack with
              | nil => exact ih marks
              | cons mark outer =>
                  dsimp only
                  rw [ih marks, ih (List.forall_mem_cons.1 marks).2]

section Depth

variable {d : Nat} {t : Token} {stack : List Text}

theorem depthAfter_opening (bracketed : t.Bracketed) {closer : Text}
    (opened : closer? t.lexeme = some closer) (deep : d ≤ stack.count (Text.ofString ")")) :
    depthAfter d t ≤ (closer :: stack).count (Text.ofString ")") := by
  rw [List.count_cons, depthAfter]
  split
  · rename_i kind
    have round : closer? t.lexeme = some (Text.ofString ")") := by
      rw [bracketed.opening kind]
      rfl
    rw [opened] at round
    rw [Option.some.inj round, if_pos BEq.rfl]
    omega
  · omega
  · omega

theorem depthAfter_le (bracketed : t.Bracketed) (opened : closer? t.lexeme = none) :
    depthAfter d t ≤ d := by
  rw [depthAfter]
  split
  · rename_i kind
    rw [bracketed.opening kind] at opened
    cases opened
  · omega
  · exact Nat.le_refl d

theorem depthAfter_closing (bracketed : t.Bracketed) (opened : closer? t.lexeme = none)
    (deep : d ≤ (t.lexeme :: stack).count (Text.ofString ")")) :
    depthAfter d t ≤ stack.count (Text.ofString ")") := by
  rw [List.count_cons] at deep
  split at deep
  · rename_i round
    have closes := bracketed.closing (eq_of_beq round)
    have depth : depthAfter d t = d - 1 := by simp [depthAfter, closes]
    omega
  · exact Nat.le_trans (depthAfter_le bracketed opened) deep

end Depth

/-- Tokens in an argument list never close its parenthesis: each parenthesis that they close was opened
by them, and is awaited if it was. -/
theorem isPostfix_within {d : Nat} {tokens : List Token} (within : Within d tokens)
    (spelled : ∀ t ∈ tokens, t.Bracketed) {stack : List Text}
    (deep : d ≤ stack.count (Text.ofString ")")) (outer : List Text) (rest : List Token) :
    isPostfix (stack ++ Text.ofString ")" :: outer) (tokens ++ rest) =
      isPostfix (awaited stack tokens ++ Text.ofString ")" :: outer) rest := by
  induction tokens generalizing d stack with
  | nil => rfl
  | cons t tokens ih =>
      obtain ⟨outside, later⟩ := within
      obtain ⟨here, behind⟩ := List.forall_mem_cons.1 spelled
      cases opened : closer? t.lexeme with
      | some closer =>
          have next := ih later behind (depthAfter_opening here opened deep)
          cases stack with
          | nil =>
              rw [List.nil_append, List.cons_append, isPostfix_inside, awaited_cons, opened]
              exact next
          | cons mark stack =>
              rw [List.cons_append, List.cons_append, isPostfix_inside, awaited_cons, opened]
              exact next
      | none =>
          have flat := depthAfter_le (d := d) here opened
          cases stack with
          | nil =>
              -- no parenthesis of the tokens is open, so the one awaited stays so
              obtain rfl : d = 0 := by simpa using deep
              have other : t.lexeme ≠ Text.ofString ")" := fun same =>
                outside rfl (here.closing same)
              have next := @ih _ later behind [] (by simpa using flat)
              rw [List.nil_append, List.cons_append, isPostfix_inside, awaited_cons, opened]
              dsimp only
              rw [if_neg other]
              exact next
          | cons mark stack =>
              rw [List.cons_append, List.cons_append, isPostfix_inside, awaited_cons, opened]
              dsimp only
              split
              · rename_i same
                subst same
                exact ih later behind (depthAfter_closing here opened deep)
              · exact ih later behind (Nat.le_trans flat deep)

/-- Argument lists with the same brackets can stand for each other. -/
theorem Swap.even_of_brackets {w : Swap} (within : Within 0 w.inner)
    (within' : Within 0 w.inner') (spelled : ∀ t ∈ w.inner, t.Bracketed)
    (spelled' : ∀ t ∈ w.inner', t.Bracketed)
    (same : w.inner'.filter Token.isBracket = w.inner.filter Token.isBracket) : w.Even := by
  have brackets : awaited [] w.inner' = awaited [] w.inner := by
    rw [← awaited_filter (by simp), same, awaited_filter (by simp)]
  intro outer back
  have old := @isPostfix_within 0 _ within spelled [] (Nat.zero_le _) outer (w.closing :: back)
  have new := @isPostfix_within 0 _ within' spelled' [] (Nat.zero_le _) outer (w.closing :: back)
  rw [List.nil_append] at old new
  rw [old, new, brackets]

end Cast

end FormatLint
