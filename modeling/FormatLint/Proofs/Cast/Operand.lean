import FormatLint.Cast

/-!
Operands in which a call is replaced by another one. Inside brackets only brackets count, so a call
may be replaced if its argument list leaves as many of them open: `Cast.Swap.ofTokens?_swap`. The
type that is written in front of an operand does not depend on it: `Cast.Swap.written?_swap`.
-/

namespace FormatLint

namespace Cast

theorem isPostfix_inside (awaited : Text) (outer : List Text) (t : Token) (rest : List Token) :
    isPostfix (awaited :: outer) (t :: rest) =
      match closer? t.lexeme with
      | some closer => isPostfix (closer :: awaited :: outer) rest
      | none =>
        if t.lexeme = awaited then isPostfix outer rest else isPostfix (awaited :: outer) rest :=
  isPostfix.eq_def (awaited :: outer) (t :: rest)

theorem isPostfix_behind (t : Token) (rest : List Token) :
    isPostfix [] (t :: rest) =
      if t.kind = .openParen then isPostfix [")"] rest
      else if t.isPunct ["["] then isPostfix ["]"] rest
      else if t.isPunct ["++", "--"] then isPostfix [] rest
      else if t.isPunct [".", "->"] then
        match rest with
        | [] => false
        | member :: later => member.kind = .ident && isPostfix [] later
      else false :=
  isPostfix.eq_def [] (t :: rest)

def closers : List Text := [")", "]"]

theorem closer?_mem {lexeme closer : Text} (found : closer? lexeme = some closer) :
    closer ∈ closers := by
  unfold closer? at found
  split at found
  · cases found
    simp [closers]
  · split at found
    · cases found
      simp [closers]
    · cases found

/-- A name that a call begins with: it opens nothing and closes nothing. -/
structure IsName (t : Token) : Prop where
  ident : t.kind = .ident
  opens : closer? t.lexeme = none
  closes : t.lexeme ∉ closers

theorem IsName.isPunct {t : Token} (name : IsName t) (spellings : List Text) :
    t.isPunct spellings = false := by
  simp [Token.isPunct, name.ident]

/-- A name and an argument list behind it, and another one to replace them. -/
structure Swap where
  name : Token
  name' : Token
  opening : Token
  inner : List Token
  inner' : List Token
  closing : Token
  isName : IsName name
  isName' : IsName name'
  opens : opening.kind = .openParen
  spelled : opening.lexeme = Text.ofString "("

namespace Swap

def old (w : Swap) (back : List Token) : List Token := w.opening :: (w.inner ++ w.closing :: back)

def new (w : Swap) (back : List Token) : List Token := w.opening :: (w.inner' ++ w.closing :: back)

/-- Behind both argument lists the same brackets are open. -/
def Even (w : Swap) : Prop := ∀ outer back,
  isPostfix (Text.ofString ")" :: outer) (w.inner' ++ w.closing :: back) =
    isPostfix (Text.ofString ")" :: outer) (w.inner ++ w.closing :: back)

variable {w : Swap}

theorem isPostfix_list (even : w.Even) (stack : List Text) (back : List Token) :
    isPostfix stack (w.new back) = isPostfix stack (w.old back) := by
  cases stack with
  | nil =>
      rw [new, old, isPostfix_behind, isPostfix_behind, if_pos w.opens, if_pos w.opens]
      exact even [] back
  | cons awaited outer =>
      rw [new, old, isPostfix_inside, isPostfix_inside, w.spelled]
      exact even (awaited :: outer) back

theorem isPostfix_name {t : Token} (name : IsName t) {stack : List Text}
    (awaited : ∀ mark ∈ stack, mark ∈ closers) (rest : List Token) :
    isPostfix stack (t :: rest) = (!stack.isEmpty && isPostfix stack rest) := by
  cases stack with
  | nil => simp [isPostfix_behind, name.ident, name.isPunct]
  | cons mark outer =>
      have other : t.lexeme ≠ mark := by
        rintro rfl
        exact name.closes (awaited _ List.mem_cons_self)
      rw [isPostfix_inside, name.opens]
      simp [other]

theorem isPostfix_swap (even : w.Even) (stack : List Text) (awaited : ∀ mark ∈ stack, mark ∈ closers)
    (front back : List Token) :
    isPostfix stack (front ++ w.name' :: w.new back) =
      isPostfix stack (front ++ w.name :: w.old back) := by
  -- The scan may take two tokens at once, behind the mark of a member access.
  generalize size : front.length = n
  induction n using Nat.strongRecOn generalizing front stack with
  | ind n ih =>
      cases front with
      | nil =>
          rw [List.nil_append, List.nil_append, isPostfix_name w.isName' awaited,
            isPostfix_name w.isName awaited, isPostfix_list even]
      | cons t front =>
          rw [List.length_cons] at size
          rw [List.cons_append, List.cons_append]
          have next (stack : List Text) (awaited : ∀ mark ∈ stack, mark ∈ closers) :
              isPostfix stack (front ++ w.name' :: w.new back) =
                isPostfix stack (front ++ w.name :: w.old back) :=
            ih front.length (by omega) stack awaited front rfl
          cases stack with
          | cons mark outer =>
              rw [isPostfix_inside, isPostfix_inside]
              cases opens : closer? t.lexeme with
              | some closer =>
                  refine next _ fun other member => ?_
                  rcases List.mem_cons.1 member with rfl | member
                  · exact closer?_mem opens
                  · exact awaited other member
              | none =>
                  dsimp only
                  rw [next _ awaited, next _ fun other member =>
                    awaited other (List.mem_cons_of_mem mark member)]
          | nil =>
              have paren := next [Text.ofString ")"] (by simp [closers])
              have bracket := next [Text.ofString "]"] (by simp [closers])
              rw [isPostfix_behind, isPostfix_behind, paren, bracket, next _ awaited]
              cases front with
              | nil =>
                  dsimp only [List.nil_append]
                  rw [w.isName'.ident, w.isName.ident, isPostfix_list even]
              | cons member front =>
                  dsimp only [List.cons_append]
                  rw [ih front.length (by simp at size; omega) _ awaited front rfl]

theorem isPrimary_swap (even : w.Even) (front back : List Token) :
    isPrimary (front ++ w.name' :: w.new back) = isPrimary (front ++ w.name :: w.old back) := by
  cases front with
  | nil =>
      rw [List.nil_append, List.nil_append, isPrimary, isPrimary, w.isName'.ident, w.isName.ident]
      exact isPostfix_list even [] back
  | cons t front =>
      have behind := isPostfix_swap even [] (by simp) front back
      have inside := isPostfix_swap even [Text.ofString ")"] (by simp [closers]) front back
      have nonempty' : (front ++ w.name' :: w.new back).isEmpty = false := by simp
      have nonempty : (front ++ w.name :: w.old back).isEmpty = false := by simp
      rw [List.cons_append, List.cons_append, isPrimary, isPrimary, behind, inside, nonempty', nonempty]
      simp [w.isName'.ident, w.isName.ident]

theorem isOperand_swap (even : w.Even) (front back : List Token) :
    isOperand (front ++ w.name' :: w.new back) = isOperand (front ++ w.name :: w.old back) := by
  have name : (w.name :: w.old back).dropWhile (·.isPunct unaryOperators) = w.name :: w.old back :=
    List.dropWhile_cons_of_neg (by simp [w.isName.isPunct])
  have name' : (w.name' :: w.new back).dropWhile (·.isPunct unaryOperators) =
      w.name' :: w.new back := List.dropWhile_cons_of_neg (by simp [w.isName'.isPunct])
  rw [isOperand, isOperand, List.dropWhile_append, List.dropWhile_append, name, name']
  split
  · exact isPrimary_swap even [] back
  · exact isPrimary_swap even _ back

end Swap

/-- The type that is written behind an opening parenthesis and closed, whatever follows it. -/
def written? (opening : Token) (tokens : List Token) : Option Cast :=
  let words := tokens.takeWhile isTypeWord
  match tokens.dropWhile isTypeWord with
  | [] => none
  | closing :: _ =>
    let spelling := Spelling.ofWords (words.map (·.lexeme))
    if (words.head?.any (·.kind = .ident)) && closing.kind = .closeParen &&
        spelling.head?.any (· ≠ .char '*') then
      some ⟨spelling, Spelling.family? spelling, opening.span.through closing.span⟩
    else none

theorem ofTokens?_eq_some_iff {opening : Token} {tokens : List Token} {c : Cast} :
    ofTokens? opening tokens = some c ↔ written? opening tokens = some c ∧
      isOperand (tokens.dropWhile isTypeWord).tail = true := by
  unfold ofTokens? written?
  cases tokens.dropWhile isTypeWord with
  | nil => simp
  | cons closing operand =>
      dsimp only [List.tail_cons]
      cases isOperand operand <;> simp

/-- The words of a type end at the parenthesis that closes it. -/
theorem words_of_closed {type : List Token} (words : ∀ t ∈ type, isTypeWord t = true)
    {closing : Token} (closes : closing.kind = .closeParen) (operand : List Token) :
    (type ++ closing :: operand).takeWhile isTypeWord = type ∧
      (type ++ closing :: operand).dropWhile isTypeWord = closing :: operand := by
  have other : ¬ isTypeWord closing = true := by simp [isTypeWord, Token.isPunct, closes]
  rw [List.takeWhile_append_of_pos words, List.takeWhile_cons_of_neg other, List.append_nil,
    List.dropWhile_append_of_pos words, List.dropWhile_cons_of_neg other]
  exact ⟨rfl, rfl⟩

structure Checked (opening : Token) (type : List Token) (closing : Token)
    (operand : List Token) : Prop where
  opens : opening.kind = .openParen
  words : ∀ t ∈ type, isTypeWord t = true
  begins : type.head?.any (·.kind = .ident) = true
  closes : closing.kind = .closeParen
  whole : isOperand operand = true
  spelled : (Spelling.ofWords (type.map (·.lexeme))).head?.any (· ≠ .char '*') = true

end Cast

theorem Argument.cast?_inversion {a : Argument} {c : Cast} :
    a.cast? = some c ↔ ∃ opening type closing operand,
      a.code = opening :: (type ++ closing :: operand) ∧
        Cast.Checked opening type closing operand ∧
        c = ⟨Spelling.ofWords (type.map (·.lexeme)),
          Spelling.family? (Spelling.ofWords (type.map (·.lexeme))),
          opening.span.through closing.span⟩ := by
  unfold cast? Cast.ofTokens?
  constructor
  · intro found
    split at found
    · cases found
    · rename_i opening tokens code
      split at found
      · rename_i opens
        dsimp only at found
        split at found
        · cases found
        · rename_i closing operand rest
          split at found
          · rename_i applies
            cases found
            simp only [Bool.and_eq_true, decide_eq_true_eq] at applies
            obtain ⟨⟨⟨begins, closes⟩, whole⟩, spelled⟩ := applies
            refine ⟨opening, tokens.takeWhile Cast.isTypeWord, closing, operand, ?_,
              ⟨opens, ?_, begins, closes, whole, spelled⟩, rfl⟩
            · rw [code, ← rest, List.takeWhile_append_dropWhile]
            · exact fun t member => List.all_eq_true.1 List.all_takeWhile t member
          · cases found
      · cases found
  · rintro ⟨opening, type, closing, operand, code, checked, rfl⟩
    obtain ⟨front, back⟩ := Cast.words_of_closed checked.words checked.closes operand
    rw [code]
    dsimp only
    rw [if_pos checked.opens, front, back]
    dsimp only
    rw [checked.begins, checked.spelled, checked.whole, checked.closes]
    rfl

namespace Cast

namespace Swap

variable {w : Swap}

theorem words_swap (front back : List Token) :
    (∃ closing operand, (front.dropWhile isTypeWord) = closing :: operand ∧
      ((front ++ w.name' :: w.new back).takeWhile isTypeWord) = front.takeWhile isTypeWord ∧
      ((front ++ w.name :: w.old back).takeWhile isTypeWord) = front.takeWhile isTypeWord ∧
      ((front ++ w.name' :: w.new back).dropWhile isTypeWord) =
        closing :: (operand ++ w.name' :: w.new back) ∧
      ((front ++ w.name :: w.old back).dropWhile isTypeWord) =
        closing :: (operand ++ w.name :: w.old back)) ∨
    ((front ++ w.name' :: w.new back).dropWhile isTypeWord = w.new back ∧
      (front ++ w.name :: w.old back).dropWhile isTypeWord = w.old back) := by
  have noWord : isTypeWord w.opening = false := by simp [isTypeWord, w.opens, Token.isPunct]
  have word : isTypeWord w.name = true := by simp [isTypeWord, w.isName.ident]
  have word' : isTypeWord w.name' = true := by simp [isTypeWord, w.isName'.ident]
  have old : (w.name :: w.old back).dropWhile isTypeWord = w.old back := by
    rw [List.dropWhile_cons_of_pos word, old, List.dropWhile_cons_of_neg (by simp [noWord])]
  have new : (w.name' :: w.new back).dropWhile isTypeWord = w.new back := by
    rw [List.dropWhile_cons_of_pos word', new, List.dropWhile_cons_of_neg (by simp [noWord])]
  cases rest : front.dropWhile isTypeWord with
  | nil =>
      refine .inr ⟨?_, ?_⟩
      · rw [List.dropWhile_append, rest, new]
        rfl
      · rw [List.dropWhile_append, rest, old]
        rfl
  | cons closing operand =>
      have shorter : (front.takeWhile isTypeWord).length ≠ front.length := by
        intro same
        have whole := congrArg List.length (List.takeWhile_append_dropWhile (p := isTypeWord) (l := front))
        rw [List.length_append, rest, same, List.length_cons] at whole
        omega
      refine .inl ⟨closing, operand, rfl, ?_, ?_, ?_, ?_⟩
      · rw [List.takeWhile_append, if_neg shorter]
      · rw [List.takeWhile_append, if_neg shorter]
      · rw [List.dropWhile_append, rest]
        rfl
      · rw [List.dropWhile_append, rest]
        rfl

/-- The type that is written does not depend on what it is written in front of. -/
theorem written?_swap (opening : Token) (front back : List Token) :
    written? opening (front ++ w.name' :: w.new back) =
      written? opening (front ++ w.name :: w.old back) := by
  rcases words_swap (w := w) front back with
    ⟨closing, operand, _, words', words, rest', rest⟩ | ⟨rest', rest⟩
  · simp only [written?, words', words, rest', rest]
  · have noClose : w.opening.kind ≠ .closeParen := by simp [w.opens]
    unfold written?
    rw [rest', rest]
    dsimp only [new, old]
    simp [noClose]

theorem ofTokens?_swap (even : w.Even) (opening : Token) (front back : List Token) :
    ofTokens? opening (front ++ w.name' :: w.new back) =
      ofTokens? opening (front ++ w.name :: w.old back) := by
  rcases words_swap (w := w) front back with
    ⟨closing, operand, _, words', words, rest', rest⟩ | ⟨rest', rest⟩
  · simp only [ofTokens?, words', words, rest', rest, isOperand_swap even]
  · have noClose : w.opening.kind ≠ .closeParen := by simp [w.opens]
    unfold ofTokens?
    rw [rest', rest]
    dsimp only [new, old]
    simp [noClose]

end Swap

end Cast

end FormatLint
