import FormatLint.Proofs.Call.Patch
import FormatLint.Proofs.Cast.Operand

/-!
What is said about a call in whose arguments another call is replaced: the same, up to the casts of
its arguments (`Call.Patched.check_like`), and the same altogether if both calls leave as many
brackets open (`Call.Patched.check_same`).
-/

namespace FormatLint

namespace Argument

/-- The type that the argument seems to be cast to, whatever it is applied to. -/
def written? (a : Argument) : Option Cast :=
  match a.code with
  | [] => none
  | opening :: rest => if opening.kind = .openParen then Cast.written? opening rest else none

theorem written?_of_cast? {a : Argument} {c : Cast} (cast : a.cast? = some c) :
    a.written? = some c := by
  unfold cast? at cast
  unfold written?
  cases coded : a.code with
  | nil =>
      rw [coded] at cast
      cases cast
  | cons opening rest =>
      rw [coded] at cast
      dsimp only at cast ⊢
      split at cast
      · rename_i opens
        rw [if_pos opens]
        exact (Cast.ofTokens?_eq_some_iff.1 cast).1
      · cases cast

end Argument

namespace Patch

variable {p : Patch}

/-- The tokens of both calls are spelled as their kinds demand. -/
structure Spelled (p : Patch) : Prop where
  name : Cast.IsName p.name
  name' : Cast.IsName p.name'
  opening : p.opening.lexeme = Text.ofString "("

def swap (p : Patch) (spelled : p.Spelled) : Cast.Swap where
  name := p.name
  name' := p.name'
  opening := p.opening
  inner := Token.code p.inner
  inner' := Token.code p.inner'
  closing := p.closing
  isName := spelled.name
  isName' := spelled.name'
  opens := p.opens
  spelled := spelled.opening

theorem code_old (p : Patch) (spelled : p.Spelled) (front back : List Token) :
    Token.code (front ++ (p.old ++ back)) =
      Token.code front ++
        (p.swap spelled).name :: (p.swap spelled).old (Token.code back) := by
  simp [Token.code, Patch.old, Cast.Swap.old, swap, Token.isComment, p.ident, p.opens, p.closes]

theorem code_new (p : Patch) (spelled : p.Spelled) (front back : List Token) :
    Token.code (front ++ (p.new ++ back)) =
      Token.code front ++
        (p.swap spelled).name' :: (p.swap spelled).new (Token.code back) := by
  simp [Token.code, Patch.new, Cast.Swap.new, swap, Token.isComment, p.ident', p.opens, p.closes]

end Patch

namespace Argument.Patched

variable {p : Patch} {a a' : Argument}

theorem ofArgument?_call {t : Token} (member : t ∈ a.tokens) (ident : t.kind = .ident) :
    FormatString.ofArgument? a = none := by
  have coded : t ∈ a.code := List.mem_filter.2 ⟨member, by simp [Token.isComment, ident]⟩
  rw [FormatString.ofArgument?_eq_none_iff, Argument.isStringLiteral, List.all_eq_false]
  exact ⟨t, coded, by simp [ident]⟩

theorem span (patched : Patched p a a') : a'.span = a.span := by
  rcases patched with rfl | ⟨front, back, whole, whole'⟩
  · rfl
  · have first := List.head?_eq_some_head a.nonempty
    have first' := List.head?_eq_some_head a'.nonempty
    have last := List.getLast?_eq_some_getLast a.nonempty
    have last' := List.getLast?_eq_some_getLast a'.nonempty
    have begins : (a'.tokens.head a'.nonempty).span = (a.tokens.head a.nonempty).span := by
      have begins := congrArg List.head? whole
      have begins' := congrArg List.head? whole'
      rw [first] at begins
      rw [first'] at begins'
      cases front with
      | nil =>
          rw [Option.some.inj begins, Option.some.inj begins']
          exact p.span
      | cons t front => rw [Option.some.inj begins, Option.some.inj begins']
    have ends : a'.tokens.getLast a'.nonempty = a.tokens.getLast a.nonempty := by
      have same : a'.tokens.getLast? = a.tokens.getLast? := by
        rw [whole, whole']
        cases back with
        | nil => simp [Patch.old, Patch.new, List.getLast?_cons]
        | cons t back => simp [List.getLast?_append, List.getLast?_cons]
      rw [last, last'] at same
      exact Option.some.inj same
    rw [Argument.span, begins, ends, Argument.span]

/-- The argument stands where it stood, and is a literal if it was one. -/
theorem arguments (patched : Patched p a a') : Places.same.Arguments a a' := by
  refine ⟨patched.span, ?_⟩
  rcases patched with rfl | ⟨front, back, whole, whole'⟩
  · exact (Places.arguments_refl _).format
  · rw [ofArgument?_call (t := p.name) (by simp [whole, Patch.old]) p.ident,
      ofArgument?_call (t := p.name') (by simp [whole', Patch.new]) p.ident']
    exact .none

/-- The type that is written in front of the argument stays the same. -/
theorem written? (patched : Patched p a a') (spelled : p.Spelled) : a'.written? = a.written? := by
  rcases patched with rfl | ⟨front, back, whole, whole'⟩
  · rfl
  · rw [Argument.written?, Argument.written?, code, code, whole, whole', p.code_old spelled,
      p.code_new spelled]
    cases Token.code front with
    | nil => simp [Patch.swap, p.ident, p.ident']
    | cons opening front =>
        simp only [List.cons_append]
        rw [Cast.Swap.written?_swap]

theorem cast? (patched : Patched p a a') (spelled : p.Spelled) (even : (p.swap spelled).Even) :
    a'.cast? = a.cast? := by
  rcases patched with rfl | ⟨front, back, whole, whole'⟩
  · rfl
  · rw [Argument.cast?, Argument.cast?, code, code, whole, whole', p.code_old spelled,
      p.code_new spelled]
    cases Token.code front with
    | nil => simp [Patch.swap, p.ident, p.ident']
    | cons opening front =>
        simp only [List.cons_append]
        rw [Cast.Swap.ofTokens?_swap even]

end Argument.Patched

namespace Call.Patched

variable {p : Patch} {c c' : Call} {source source' : Source}

theorem calls (patched : Patched p c c') : Places.same.Calls c c' := by
  refine .of_arguments patched.printer ?_ (patched.arguments.imp fun _ _ => Argument.Patched.arguments)
  rw [patched.opening, patched.closing]
  rfl

/-- The same is said about the call, up to the casts of its arguments. -/
theorem check_like (patched : Patched p c c') :
    Places.same.Verdicts (c.check source) (c'.check source') := Call.check_like patched.calls

/-- The same is said about the call. -/
theorem check_same (patched : Patched p c c') (spelled : p.Spelled)
    (even : (p.swap spelled).Even) :
    Places.same.SameVerdicts (c.check source) (c'.check source') := by
  refine Call.check_same patched.calls ?_
  have arguments := patched.arguments
  generalize c.arguments = front at arguments
  generalize c'.arguments = front' at arguments
  induction arguments with
  | nil => rfl
  | cons argument _ ih =>
      rw [List.map_cons, List.map_cons, ih, Argument.castType?, Argument.castType?,
        Argument.Patched.cast? argument spelled even]

end Call.Patched

end FormatLint
