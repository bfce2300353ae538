import FormatLint.Call.Slot

/-!
How deep tokens stand in parentheses, and what an argument list looks like. `Slot.cut_eq_some_iff`
says that cutting yields exactly the slots that are written in front of the closing parenthesis.
-/

namespace FormatLint

namespace Token

/-- What the token adds to the depth of parentheses. -/
def rise (t : Token) : Int :=
  match t.kind with
  | .openParen => 1
  | .closeParen => -1
  | _ => 0

/-- How many more parentheses the tokens open than they close. -/
def depth : List Token → Int
  | [] => 0
  | t :: rest => t.rise + depth rest

@[simp] theorem depth_nil : depth [] = 0 := rfl

@[simp] theorem depth_cons (t : Token) (rest : List Token) :
    depth (t :: rest) = t.rise + depth rest := rfl

@[simp] theorem depth_append (before after : List Token) :
    depth (before ++ after) = depth before + depth after := by
  induction before with
  | nil => simp
  | cons t rest ih =>
      rw [List.cons_append, depth_cons, depth_cons, ih, Int.add_assoc]

end Token

namespace Slot

/-- The tokens can be the rest of a slot from a place inside `d` inner parentheses on: they close
these, and neither end the statement nor reach outside the slot before. -/
structure Fills (d : Nat) (tokens : List Token) : Prop where
  closed : d + Token.depth tokens = 0
  inside : ∀ before t after, tokens = before ++ t :: after →
    endsStatement t = false ∧ 0 ≤ d + Token.depth before ∧
      (d + Token.depth before = 0 → t.kind ≠ .comma ∧ t.kind ≠ .closeParen)

theorem fills_nil {d : Nat} : Fills d [] ↔ d = 0 := by
  constructor
  · intro fills
    have closed := fills.closed
    simp at closed
    omega
  · rintro rfl
    exact ⟨rfl, fun before t after whole => by simp at whole⟩

theorem depthAfter_eq {d : Nat} {t : Token} (inner : d = 0 → t.kind ≠ .closeParen) :
    (depthAfter d t : Int) = d + t.rise := by
  cases kind : t.kind with
  | closeParen =>
      have positive : d ≠ 0 := fun zero => inner zero kind
      simp only [depthAfter, Token.rise, kind]
      omega
  | _ => simp [depthAfter, Token.rise, kind]

theorem fills_cons {d : Nat} {t : Token} {rest : List Token} :
    Fills d (t :: rest) ↔ endsStatement t = false ∧
      (d = 0 → t.kind ≠ .comma ∧ t.kind ≠ .closeParen) ∧ Fills (depthAfter d t) rest := by
  constructor
  · intro fills
    obtain ⟨continues, _, inner⟩ := fills.inside [] t rest rfl
    have outer : d = 0 → t.kind ≠ .comma ∧ t.kind ≠ .closeParen :=
      fun zero => inner (by simp [zero])
    have depth := depthAfter_eq fun zero => (outer zero).2
    refine ⟨continues, outer, ⟨?_, ?_⟩⟩
    · have closed := fills.closed
      rw [Token.depth_cons] at closed
      omega
    · intro before other after whole
      have next := fills.inside (t :: before) other after (by simp [whole])
      rw [Token.depth_cons] at next
      rw [depth, Int.add_assoc]
      exact next
  · rintro ⟨continues, outer, fills⟩
    have depth := depthAfter_eq fun zero => (outer zero).2
    refine ⟨?_, ?_⟩
    · have closed := fills.closed
      rw [Token.depth_cons]
      omega
    · intro before other after whole
      cases before with
      | nil =>
          obtain ⟨rfl, rfl⟩ := List.cons.inj whole
          refine ⟨continues, by simp, fun zero => outer ?_⟩
          simp at zero
          omega
      | cons first before =>
          obtain ⟨rfl, rfl⟩ := List.cons.inj whole
          have next := fills.inside before other after rfl
          rw [depth, Int.add_assoc] at next
          rw [Token.depth_cons]
          exact next

/-- Slots of an argument list, the first of which begins inside `d` inner parentheses. -/
inductive Listed : Nat → List Slot → Prop
  | last {d : Nat} {s : Slot} (fills : Fills d s.tokens) (closes : s.stop.kind = .closeParen) :
      Listed d [s]
  | next {d : Nat} {s : Slot} {later : List Slot} (fills : Fills d s.tokens)
      (comma : s.stop.kind = .comma) (listed : Listed 0 later) : Listed d (s :: later)

/-- The tokens of the slots, each with the separator behind it. -/
def written (slots : List Slot) : List Token := slots.flatMap fun s => s.tokens ++ [s.stop]

@[simp] theorem written_cons (s : Slot) (later : List Slot) :
    written (s :: later) = s.tokens ++ s.stop :: written later := by
  simp [written]

@[simp] theorem written_append (before after : List Slot) :
    written (before ++ after) = written before ++ written after := by
  simp [written]

theorem endsStatement_of_kind {t : Token} (delimiter : t.kind = .comma ∨ t.kind = .closeParen) :
    endsStatement t = false := by
  rcases delimiter with kind | kind <;> simp [endsStatement, Token.isPunct, kind]

/-- Tokens that close all that they open stay in one slot. -/
theorem cut_append_inner (d : Nat) {e : Nat} {tokens : List Token} (rest : List Token)
    (fills : Fills e tokens) :
    cut (d + e) (tokens ++ rest) =
      (cut d rest).map fun slots => tokens.foldr consFirst slots := by
  induction tokens generalizing e with
  | nil =>
      rw [fills_nil.1 fills]
      simp
  | cons t tokens ih =>
      obtain ⟨continues, outer, later⟩ := fills_cons.1 fills
      have inner : ∀ kind, kind = .closeParen ∨ kind = .comma → ¬ (d + e = 0 ∧ t.kind = kind) := by
        rintro kind delimiter ⟨zero, same⟩
        obtain ⟨noComma, noClose⟩ := outer (by omega)
        rcases delimiter with rfl | rfl
        · exact noClose same
        · exact noComma same
      have depth : depthAfter (d + e) t = d + depthAfter e t := by
        cases kind : t.kind with
        | closeParen =>
            have positive : e ≠ 0 := fun zero => (outer zero).2 kind
            simp only [depthAfter, kind]
            omega
        | _ => simp [depthAfter, kind, Nat.add_assoc]
      rw [List.cons_append, cut, if_neg (by simp [continues]), if_neg (inner _ (.inl rfl)),
        if_neg (inner _ (.inr rfl)), depth, ih later, Option.map_map]
      rfl

theorem cut_append {d : Nat} {tokens rest : List Token} (fills : Fills d tokens) :
    cut d (tokens ++ rest) = (cut 0 rest).map fun slots => tokens.foldr consFirst slots := by
  have inner := cut_append_inner 0 rest fills
  rwa [Nat.zero_add] at inner

theorem foldr_consFirst (tokens : List Token) (s : Slot) (later : List Slot) :
    tokens.foldr consFirst (s :: later) = ⟨tokens ++ s.tokens, s.stop⟩ :: later := by
  induction tokens with
  | nil => rfl
  | cons t rest ih => simp [ih, consFirst]

theorem cut_written {d : Nat} {slots : List Slot} (listed : Listed d slots) (after : List Token) :
    cut d (written slots ++ after) = some slots := by
  induction listed with
  | last fills closes =>
      have continues := endsStatement_of_kind (.inr closes)
      simp [written, cut_append fills, cut, continues, closes, foldr_consFirst]
  | next fills comma _ ih =>
      have continues := endsStatement_of_kind (.inl comma)
      rw [written_cons, List.append_assoc, List.cons_append, cut_append fills]
      simp [cut, continues, comma, ih, foldr_consFirst]

/-- Cutting yields the slots of the argument list that is written in front of the rest. -/
theorem cut_eq_some_iff {d : Nat} {tokens : List Token} {slots : List Slot} :
    cut d tokens = some slots ↔ Listed d slots ∧ ∃ after, tokens = written slots ++ after := by
  constructor
  · intro closed
    fun_induction cut d tokens generalizing slots with
    | case1 => cases closed
    | case2 => cases closed
    | case3 d t rest _ closes =>
        cases closed
        rw [closes.1]
        exact ⟨.last (fills_nil.2 rfl) closes.2, rest, rfl⟩
    | case4 d t rest _ _ comma ih =>
        obtain ⟨later, found, rfl⟩ := Option.map_eq_some_iff.1 closed
        obtain ⟨listed, after, rfl⟩ := ih found
        rw [comma.1]
        exact ⟨.next (fills_nil.2 rfl) comma.2 listed, after, rfl⟩
    | case5 d t rest continues noClose noComma ih =>
        obtain ⟨later, found, rfl⟩ := Option.map_eq_some_iff.1 closed
        obtain ⟨listed, after, rfl⟩ := ih found
        have inner : d = 0 → t.kind ≠ .comma ∧ t.kind ≠ .closeParen :=
          fun zero => ⟨fun comma => noComma ⟨zero, comma⟩, fun closes => noClose ⟨zero, closes⟩⟩
        have stays : endsStatement t = false := by simpa using continues
        cases listed with
        | last fills closes =>
            exact ⟨.last (fills_cons.2 ⟨stays, inner, fills⟩) closes, after, rfl⟩
        | next fills comma listed =>
            exact ⟨.next (fills_cons.2 ⟨stays, inner, fills⟩) comma listed, after, rfl⟩
  · rintro ⟨listed, after, rfl⟩
    exact cut_written listed after

end Slot

end FormatLint
