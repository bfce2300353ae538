import FormatLint.Analysis
import FormatLint.Proofs.Call.Layout
import FormatLint.Proofs.Token.Laid

/-!
Where calls stand to each other. Argument lists are closed inside out, so of two calls the later one
stands behind the other, or whole inside one of its slots: `Site.placement`. So two arguments are
apart, or one of them encloses the other: `Site.arguments_nest`.
-/

namespace FormatLint

theorem order_cases {α : Type} {left right front back : List α} {x y : α}
    (whole : left ++ x :: right = front ++ y :: back) :
    (∃ between, front = left ++ x :: between ∧ right = between ++ y :: back) ∨
      (left = front ∧ x = y ∧ right = back) ∨
        ∃ between, left = front ++ y :: between ∧ back = between ++ x :: right := by
  rcases List.append_eq_append_iff.1 whole with ⟨more, rfl, rest⟩ | ⟨more, rfl, rest⟩
  · cases more with
    | nil =>
        obtain ⟨rfl, rfl⟩ := List.cons.inj rest
        exact .inr (.inl ⟨by simp, rfl, rfl⟩)
    | cons first more =>
        obtain ⟨rfl, rfl⟩ := List.cons.inj rest
        exact .inl ⟨more, rfl, rfl⟩
  · cases more with
    | nil =>
        obtain ⟨rfl, rfl⟩ := List.cons.inj rest
        exact .inr (.inl ⟨by simp, rfl, rfl⟩)
    | cons first more =>
        obtain ⟨rfl, rfl⟩ := List.cons.inj rest
        exact .inr (.inr ⟨more, rfl, rfl⟩)

namespace Slot

theorem Fills.depth_front {d : Nat} {front back : List Token} (fills : Fills d (front ++ back)) :
    0 ≤ d + Token.depth front := by
  cases back with
  | nil =>
      have closed := fills.closed
      rw [List.append_nil] at closed
      omega
  | cons t back => exact (fills.inside front t back rfl).2.1

/-- Before its last parenthesis an argument list closes no more than is open. -/
theorem Listed.depth_front {d : Nat} {slots : List Slot} (listed : Listed d slots)
    {front back : List Token} {t : Token} (whole : written slots = front ++ t :: back) :
    0 ≤ d + Token.depth front := by
  induction listed generalizing front with
  | @last d s fills _ =>
      rw [written_cons] at whole
      rcases order_cases whole with ⟨between, _, before⟩ | ⟨rfl, _⟩ | ⟨between, inside, _⟩
      · simp [written] at before
      · have closed := fills.closed
        omega
      · rw [inside] at fills
        exact fills.depth_front
  | @next d s later fills comma _ ih =>
      rw [written_cons] at whole
      rcases order_cases whole with ⟨between, rfl, inside⟩ | ⟨rfl, _⟩ | ⟨between, inside, _⟩
      · have closed := fills.closed
        have rest := ih inside
        have flat : s.stop.rise = 0 := by simp [Token.rise, comma]
        rw [Token.depth_append, Token.depth_cons, flat]
        omega
      · have closed := fills.closed
        omega
      · rw [inside] at fills
        exact fills.depth_front

theorem Fills.contains {d : Nat} {before inner after tail : List Token} {opening stop : Token}
    {slots : List Slot} (fills : Fills d (before ++ opening :: inner))
    (opens : opening.kind = .openParen) (listed : Listed 0 slots)
    (whole : inner ++ stop :: after = written slots ++ tail) :
    ∃ rest, inner = written slots ++ rest := by
  rcases List.append_eq_append_iff.1 whole with ⟨more, longer, rest⟩ | ⟨more, rfl, _⟩
  · cases more with
    | nil => exact ⟨[], by simpa using longer.symm⟩
    | cons first more =>
        -- the list would close more inside the slot than was opened there
        have inside := listed.depth_front longer
        have outside := fills.depth_front
        have closed := fills.closed
        have up : opening.rise = 1 := by simp [Token.rise, opens]
        rw [Token.depth_append, Token.depth_cons, up] at closed
        omega
  · exact ⟨more, rfl⟩

/-- A token that separates nothing stands inside a slot. -/
theorem written_split {slots : List Slot} {front back : List Token} {t : Token}
    (whole : written slots = front ++ t :: back) (inner : ∀ s ∈ slots, s.stop ≠ t) :
    ∃ earlier s later left right, slots = earlier ++ s :: later ∧ s.tokens = left ++ t :: right ∧
      front = written earlier ++ left ∧ back = right ++ s.stop :: written later := by
  induction slots generalizing front with
  | nil => simp [written] at whole
  | cons s later ih =>
      rw [written_cons] at whole
      rcases order_cases whole with ⟨between, rfl, rest⟩ | ⟨_, same, _⟩ | ⟨between, inside, rest⟩
      · obtain ⟨earlier, s', later', left, right, rfl, tokens, rfl, rfl⟩ :=
          ih rest fun other member => inner other (List.mem_cons_of_mem s member)
        exact ⟨s :: earlier, s', later', left, right, rfl, tokens, by simp, rfl⟩
      · exact absurd same (inner s List.mem_cons_self)
      · exact ⟨[], s, later, front, between, rfl, inside, by simp [written], rest⟩

theorem Listed.stop_kind {d : Nat} {slots : List Slot} (listed : Listed d slots) :
    ∀ s ∈ slots, s.stop.kind = .comma ∨ s.stop.kind = .closeParen := by
  induction listed with
  | last _ closes => simp [closes]
  | next _ comma _ ih =>
      intro s member
      rcases List.mem_cons.1 member with rfl | member
      · exact .inl comma
      · exact ih s member

theorem Listed.written_eq {d : Nat} {slots : List Slot} (listed : Listed d slots) :
    ∃ inner closing, written slots = inner ++ [closing] ∧ closing.kind = .closeParen ∧
      ∀ s ∈ slots, s.tokens ⊆ inner := by
  induction listed with
  | @last d s _ closes => exact ⟨s.tokens, s.stop, by simp [written], closes, by simp⟩
  | @next d s later _ _ _ ih =>
      obtain ⟨inner, closing, whole, closes, inside⟩ := ih
      refine ⟨s.tokens ++ s.stop :: inner, closing, by simp [whole], closes, ?_⟩
      intro other member t found
      rcases List.mem_cons.1 member with rfl | member
      · exact List.mem_append_left _ found
      · exact List.mem_append_right _ (List.mem_cons_of_mem _ (inside other member found))

theorem written_getLast? (slots : List Slot) :
    (written slots).getLast? = slots.getLast?.map (·.stop) := by
  induction slots with
  | nil => rfl
  | cons s later ih =>
      rw [written_cons, List.getLast?_append, List.getLast?_cons, ih, List.getLast?_cons]
      cases later.getLast? <;> rfl

theorem Listed.closing_eq {d : Nat} {slots : List Slot} (listed : Listed d slots)
    (opening : Token) : ∃ inner, written slots = inner ++ [closing opening slots] ∧
      ∀ s ∈ slots, s.tokens ⊆ inner := by
  obtain ⟨inner, last, whole, _, inside⟩ := listed.written_eq
  have same := written_getLast? slots
  rw [whole, List.getLast?_concat] at same
  exact ⟨inner, by rw [whole, closing, ← same]; rfl, inside⟩

theorem Listed.fills {slots : List Slot} (listed : Listed 0 slots) :
    ∀ s ∈ slots, Fills 0 s.tokens := by
  generalize zero : 0 = d at listed
  induction listed with
  | last fills _ =>
      subst zero
      simp [fills]
  | next fills _ _ ih =>
      subst zero
      intro s member
      rcases List.mem_cons.1 member with rfl | member
      · exact fills
      · exact ih rfl s member

end Slot

namespace Site

/-- The tokens of a call, from its name to the end of its argument list. -/
def written (s : Site) (slots : List Slot) : List Token :=
  s.name :: (s.comments ++ s.opening :: Slot.written slots)

/-- The slots are written at the site, in front of the tokens `after`. -/
structure Lists (s : Site) (slots : List Slot) (after : List Token) : Prop where
  later : s.later = Slot.written slots ++ after
  listed : Slot.Listed 0 slots

theorem Lists.tokens_eq {s : Site} {slots : List Slot} {after : List Token}
    (lists : s.Lists slots after) : s.tokens = s.before ++ (s.written slots ++ after) := by
  simp [tokens, written, lists.later]

theorem Lists.unique {s : Site} {slots slots' : List Slot} {after after' : List Token}
    (first : s.Lists slots after) (second : s.Lists slots' after') : slots' = slots := by
  have one := Slot.cut_eq_some_iff.2 ⟨first.listed, after, first.later⟩
  have two := Slot.cut_eq_some_iff.2 ⟨second.listed, after', second.later⟩
  rw [one] at two
  exact (Option.some.inj two).symm

theorem Lists.lexical {s : Site} {slots : List Slot} {after lexical : List Token} {eof : Token}
    (lists : s.Lists slots after) (whole : s.tokens = lexical ++ [eof]) (ends : eof.kind = .eof) :
    ∃ rest, lexical = s.before ++ s.written slots ++ rest := by
  obtain ⟨inner, closing, list, closes, _⟩ := lists.listed.written_eq
  rw [lists.tokens_eq, ← List.append_assoc] at whole
  rcases List.eq_nil_or_concat after with rfl | ⟨rest, last, rfl⟩
  · rw [List.append_nil, written, list] at whole
    have same := congrArg List.getLast? whole
    simp only [← List.append_assoc, ← List.cons_append, List.getLast?_concat] at same
    rw [Option.some.inj same, ends] at closes
    cases closes
  · rw [List.concat_eq_append, ← List.append_assoc] at whole
    exact ⟨rest, (List.append_inj' whole rfl).1.symm⟩

theorem Lists.inOrder {s : Site} {slots : List Slot} {after lexical : List Token} {eof : Token}
    (lists : s.Lists slots after) (whole : s.tokens = lexical ++ [eof]) (ends : eof.kind = .eof)
    (ordered : Token.Ordered lexical) : Token.Ordered (s.before ++ s.written slots) := by
  obtain ⟨rest, rfl⟩ := lists.lexical whole ends
  exact ordered.sublist (List.sublist_append_left _ _)

/-- The name at a later site stands behind the parenthesis at an earlier one. -/
theorem later_of_order {table : PrinterTable} {first second : Site}
    (same : first.tokens = second.tokens) (tracked₁ : first.Tracked table)
    (tracked₂ : second.Tracked table) (order : first.before.length < second.before.length) :
    ∃ between, first.later =
      between ++ second.name :: (second.comments ++ second.opening :: second.later) := by
  have name : second.name.kind = .ident := tracked₂.ident
  rw [tokens, tokens] at same
  rcases order_cases same with ⟨more, longer, rest⟩ | ⟨equal, _⟩ | ⟨more, shorter, _⟩
  · rcases order_cases rest with ⟨between, _, later⟩ | ⟨_, opening, _⟩ | ⟨between, inside, _⟩
    · exact ⟨between, later⟩
    · have opens := tracked₁.opens
      rw [opening, name] at opens
      cases opens
    · have comment := tracked₁.comments second.name (by simp [inside])
      rw [name] at comment
      cases comment
  · rw [equal] at order
    exact absurd order (Nat.lt_irrefl _)
  · have length := congrArg List.length shorter
    simp only [List.length_append, List.length_cons] at length
    omega

/-- A name behind that of a call stands behind the call, or with its parenthesis inside one of the
slots. -/
theorem name_placement {table : PrinterTable} {first second : Site}
    (same : first.tokens = second.tokens) (tracked₁ : first.Tracked table)
    (tracked₂ : second.Tracked table) (order : first.before.length < second.before.length)
    {slots : List Slot} {after : List Token} (lists : first.Lists slots after) :
    (∃ between, after =
      between ++ second.name :: (second.comments ++ second.opening :: second.later)) ∨
      ∃ earlier s later left inner, slots = earlier ++ s :: later ∧
        s.tokens = left ++ second.name :: (second.comments ++ second.opening :: inner) ∧
        second.later = inner ++ s.stop :: (Slot.written later ++ after) := by
  have name : second.name.kind = .ident := tracked₂.ident
  obtain ⟨between, rest⟩ := later_of_order same tracked₁ tracked₂ order
  rw [lists.later] at rest
  rcases List.append_eq_append_iff.1 rest with ⟨more, _, behind⟩ | ⟨more, longer, behind⟩
  · exact .inl ⟨more, behind⟩
  cases more with
  | nil => exact .inl ⟨[], behind.symm⟩
  | cons t more =>
      -- the name stands in the argument list, and so before the end of one of the slots
      rw [List.cons_append] at behind
      obtain ⟨rfl, front⟩ := List.cons.inj behind
      have noName : ∀ s ∈ slots, s.stop ≠ second.name := by
        intro s member equal
        have separator := lists.listed.stop_kind s member
        rw [equal, name] at separator
        simp at separator
      obtain ⟨earlier, s, later, left, right, rfl, tokens, rfl, rfl⟩ :=
        Slot.written_split longer noName
      have separator := lists.listed.stop_kind s (by simp)
      rw [List.append_assoc, List.cons_append] at front
      rcases order_cases front.symm with ⟨_, inside, _⟩ | ⟨_, equal, _⟩ | ⟨within, rfl, inside⟩
      · rw [tracked₂.comments s.stop (by simp [inside])] at separator
        simp at separator
      · rw [equal, tracked₂.opens] at separator
        simp at separator
      · exact .inr ⟨earlier, s, later, left, within, rfl, tokens, inside⟩

/-- Of two calls the later one stands behind the other, or whole inside one of its slots. -/
theorem placement {table : PrinterTable} {first second : Site} (same : first.tokens = second.tokens)
    (tracked₁ : first.Tracked table) (tracked₂ : second.Tracked table)
    (order : first.before.length < second.before.length) {slots₁ slots₂ : List Slot}
    {after₁ after₂ : List Token} (lists₁ : first.Lists slots₁ after₁)
    (lists₂ : second.Lists slots₂ after₂) :
    (∃ between, after₁ = between ++ second.written slots₂ ++ after₂) ∨
      ∃ earlier s later left right, slots₁ = earlier ++ s :: later ∧
        s.tokens = left ++ second.written slots₂ ++ right := by
  rcases name_placement same tracked₁ tracked₂ order lists₁ with
    ⟨between, behind⟩ | ⟨earlier, s, later, left, inner, rfl, tokens, rest⟩
  · refine .inl ⟨between, ?_⟩
    rw [behind, lists₂.later]
    simp [written]
  · have fills := lists₁.listed.fills s (by simp)
    rw [tokens, ← List.cons_append, ← List.append_assoc] at fills
    rw [lists₂.later] at rest
    obtain ⟨tail, rfl⟩ := fills.contains tracked₂.opens lists₂.listed rest.symm
    refine .inr ⟨earlier, s, later, left, tail, rfl, ?_⟩
    rw [tokens]
    simp [written]

end Site

namespace Argument

def first (a : Argument) : Token := a.tokens.head a.nonempty

def last (a : Argument) : Token := a.tokens.getLast a.nonempty

theorem first_mem (a : Argument) : a.first ∈ a.tokens := List.head_mem a.nonempty

theorem last_mem (a : Argument) : a.last ∈ a.tokens := List.getLast_mem a.nonempty

/-- The first argument ends before the second one begins. -/
def Precedes (a b : Argument) : Prop := a.span.stop.offset < b.span.start.offset

/-- The second argument stands inside the first one and touches neither of its ends. -/
def Encloses (a b : Argument) : Prop :=
  a.span.start.offset < b.span.start.offset ∧ b.span.stop.offset < a.span.stop.offset

/-- The arguments are apart, or the second one stands inside the first one. -/
def Nests (a b : Argument) : Prop := a.Precedes b ∨ b.Precedes a ∨ a.Encloses b

theorem span_covers {a : Argument} (ordered : Token.Ordered a.tokens) :
    ∀ t ∈ a.tokens, a.span.start.offset ≤ t.span.start.offset ∧
      t.span.stop.offset ≤ a.span.stop.offset := by
  intro t member
  have positive := ordered.nonempty t member
  constructor
  · change a.first.span.start.offset ≤ _
    have whole : a.tokens = a.first :: a.tokens.tail := (List.cons_head_tail a.nonempty).symm
    have bounds := ordered.nonempty a.first a.first_mem
    have pairwise := ordered.pairwise
    rw [whole] at member pairwise
    rcases List.mem_cons.1 member with rfl | member
    · exact Nat.le_refl _
    · have order := List.rel_of_pairwise_cons pairwise member
      omega
  · change _ ≤ a.last.span.stop.offset
    have whole : a.tokens = a.tokens.dropLast ++ [a.last] :=
      (List.dropLast_concat_getLast a.nonempty).symm
    have bounds := ordered.nonempty a.last a.last_mem
    have pairwise := ordered.pairwise
    rw [whole] at member pairwise
    rcases List.mem_append.1 member with member | member
    · have order := (List.pairwise_append.1 pairwise).2.2 t member a.last (by simp)
      omega
    · exact Nat.le_of_eq (by rw [List.mem_singleton.1 member])

theorem precedes_of_between {front back : List Token} {t : Token} {a b : Argument}
    (ordered : Token.Ordered (front ++ t :: back)) (before : a.tokens ⊆ front)
    (after : b.tokens ⊆ back) : a.Precedes b := by
  have pairwise := List.pairwise_append.1 ordered.pairwise
  have left := pairwise.2.2 a.last (before a.last_mem) t List.mem_cons_self
  have right := List.rel_of_pairwise_cons pairwise.2.1 (after b.first_mem)
  have positive := ordered.nonempty t (by simp)
  change a.last.span.stop.offset < b.first.span.start.offset
  omega

theorem encloses_of_between {left inner right : List Token} {opening closing : Token}
    {a b : Argument} (ordered : Token.Ordered a.tokens)
    (whole : a.tokens = left ++ opening :: (inner ++ closing :: right))
    (inside : b.tokens ⊆ inner) : a.Encloses b := by
  have front := span_covers ordered opening (by simp [whole])
  have back := span_covers ordered closing (by simp [whole])
  have first := ordered.nonempty opening (by simp [whole])
  have last := ordered.nonempty closing (by simp [whole])
  rw [whole] at ordered
  have pairwise := (List.pairwise_append.1 ordered.pairwise).2.1
  have begins := List.rel_of_pairwise_cons pairwise
    (List.mem_append_left _ (inside b.first_mem))
  have ends := (List.pairwise_append.1 (List.pairwise_cons.1 pairwise).2).2.2 b.last
    (inside b.last_mem) closing List.mem_cons_self
  change a.span.start.offset < b.first.span.start.offset ∧
    b.last.span.stop.offset < a.span.stop.offset
  omega

end Argument

namespace Slot

theorem trimmed_sublist (s : Slot) : s.trimmed.Sublist s.tokens := by
  obtain ⟨lead, trail, whole, _, _⟩ := Token.trimComments_split s.tokens
  rw [trimmed]
  conv => rhs; rw [whole]
  exact (List.sublist_append_right lead _).trans (List.sublist_append_left _ trail)

theorem tokens_of_ofTokens? {tokens : List Token} {a : Argument}
    (made : Argument.ofTokens? tokens = some a) : a.tokens = tokens := by
  unfold Argument.ofTokens? at made
  split at made
  · cases made
    rfl
  · cases made

theorem mem_arguments {slots : List Slot} {a : Argument} (member : a ∈ arguments slots) :
    ∃ s ∈ slots, a.tokens = s.trimmed := by
  unfold arguments at member
  split at member
  · cases member
  · obtain ⟨s, inside, made⟩ := List.mem_filterMap.1 member
    exact ⟨s, inside, tokens_of_ofTokens? made⟩

theorem subset_written {slots : List Slot} {s : Slot} (member : s ∈ slots) :
    s.tokens ⊆ written slots := by
  intro t inside
  exact List.mem_flatMap.2 ⟨s, member, by simp [inside]⟩

theorem stop_mem_written {slots : List Slot} {s : Slot} (member : s ∈ slots) :
    s.stop ∈ written slots := List.mem_flatMap.2 ⟨s, member, by simp⟩

theorem trimmed_infix (s : Slot) : s.trimmed <:+: s.tokens := by
  obtain ⟨lead, trail, whole, _, _⟩ := Token.trimComments_split s.tokens
  exact ⟨lead, trail, whole.symm⟩

theorem tokens_infix {slots : List Slot} {s : Slot} (member : s ∈ slots) :
    s.tokens <:+: written slots := by
  obtain ⟨earlier, later, rfl⟩ := List.append_of_mem member
  exact ⟨written earlier, s.stop :: written later, by simp⟩

theorem arguments_pairwise {slots : List Slot} (ordered : Token.Ordered (written slots)) :
    (arguments slots).Pairwise Argument.Precedes := by
  unfold arguments
  split
  · exact .nil
  · rename_i filled
    clear filled
    rw [List.pairwise_filterMap]
    induction slots with
    | nil => exact .nil
    | cons s later ih =>
        rw [written_cons] at ordered
        have rest := ordered.sublist ((List.sublist_cons_self _ _).trans
          (List.sublist_append_right s.tokens _))
        refine .cons ?_ (ih rest)
        intro other member a front b back
        refine Argument.precedes_of_between ordered ?_ ?_
        · rw [tokens_of_ofTokens? front]
          exact s.trimmed_sublist.subset
        · rw [tokens_of_ofTokens? back]
          exact fun t inside => subset_written member (other.trimmed_sublist.subset inside)

end Slot

namespace Token

theorem trimComments_between (left right inner : List Token) {opening closing : Token}
    (first : opening.kind ≠ .comment) (last : closing.kind ≠ .comment) :
    trimComments (left ++ opening :: (inner ++ closing :: right)) =
      left.dropWhile isComment ++
        opening :: (inner ++ closing :: (right.reverse.dropWhile isComment).reverse) := by
  have drop (more rest : List Token) (t : Token) (stops : t.kind ≠ .comment) :
      (more ++ t :: rest).dropWhile isComment = more.dropWhile isComment ++ t :: rest := by
    rw [List.dropWhile_append]
    split
    · rename_i empty
      rw [List.isEmpty_iff.1 empty, List.dropWhile_cons_of_neg (by simpa [isComment] using stops)]
      rfl
    · rfl
  rw [trimComments, drop _ _ _ first]
  have back := drop right.reverse (inner.reverse ++ opening :: (left.dropWhile isComment).reverse)
    closing last
  simp only [List.reverse_append, List.reverse_cons, List.append_assoc, List.cons_append,
    List.nil_append] at back ⊢
  rw [back]
  simp

theorem trimComments_inner (left right inner : List Token) {opening closing : Token}
    (first : opening.kind ≠ .comment) (last : closing.kind ≠ .comment) :
    ∃ front back, trimComments (left ++ opening :: (inner ++ closing :: right)) =
      front ++ opening :: (inner ++ closing :: back) :=
  ⟨_, _, trimComments_between left right inner first last⟩

end Token

namespace Site

theorem slots_sublist (s : Site) (slots : List Slot) :
    (Slot.written slots).Sublist (s.written slots) :=
  .cons _ ((List.sublist_cons_self s.opening _).trans (List.sublist_append_right s.comments _))

theorem lists_of_call {s : Site} {c : Call} (read : s.mention = .call c) :
    ∃ slots after, s.Lists slots after ∧ c.arguments = Slot.arguments slots ∧
      c.printer = s.printer := by
  obtain ⟨slots, after, later, listed, _, rfl⟩ := Mention.readCall_eq_call_iff.1 read
  exact ⟨slots, after, ⟨later, listed⟩, rfl, rfl⟩

/-- A call behind another one stands behind all of it. -/
theorem Lists.before_of_behind {first second : Site} {slots₁ slots₂ : List Slot}
    {after₁ after₂ between : List Token} (lists₁ : first.Lists slots₁ after₁)
    (lists₂ : second.Lists slots₂ after₂) (same : first.tokens = second.tokens)
    (behind : after₁ = between ++ second.written slots₂ ++ after₂) :
    second.before = first.before ++ (first.written slots₁ ++ between) := by
  rw [lists₁.tokens_eq, lists₂.tokens_eq, behind] at same
  simp only [← List.append_assoc] at same
  rw [List.append_left_inj, List.append_left_inj] at same
  rw [← same, List.append_assoc]

theorem exists_argument {slots : List Slot} (proper : Slot.Proper slots) {slot : Slot}
    (listed : slot ∈ slots) {t : Token} (inside : t ∈ slot.tokens) (code : t.kind ≠ .comment) :
    ∃ a ∈ Slot.arguments slots, a.tokens = slot.trimmed := by
  have filled : Slot.areBare slots = false := by
    refine Bool.eq_false_iff.2 fun bare => ?_
    obtain ⟨only, rfl, blank⟩ := Slot.areBare_iff.1 bare
    rw [List.mem_singleton.1 listed] at inside
    exact code (blank t inside)
  have made := List.mem_map_of_mem (f := Slot.trimmed) listed
  rw [← Slot.arguments_tokens proper filled] at made
  obtain ⟨a, member, tokens⟩ := List.mem_map.1 made
  exact ⟨a, member, tokens⟩

/-- A call that stands in a slot still stands in it when the comments around it are dropped. -/
theorem trimmed_of_written {table : PrinterTable} {s : Site} (tracked : s.Tracked table)
    {inner : List Slot} (closed : Slot.Listed 0 inner) {slot : Slot} {left right : List Token}
    (tokens : slot.tokens = left ++ s.written inner ++ right) :
    ∃ lead trail, slot.trimmed = lead ++ s.written inner ++ trail := by
  -- the call begins with its name and ends with its parenthesis, which are not trimmed
  have begins : s.name.kind ≠ .comment := by simp [tracked.ident]
  obtain ⟨list, closing, whole, closes, _⟩ := closed.written_eq
  have stops : closing.kind ≠ .comment := by simp [closes]
  obtain ⟨lead, trail, kept⟩ := Token.trimComments_inner left right
    (s.comments ++ s.opening :: list) begins stops
  have regrouped : s.written inner = s.name :: (s.comments ++ s.opening :: list ++ [closing]) := by
    rw [written, whole]
    simp
  refine ⟨lead, trail, ?_⟩
  rw [Slot.trimmed, tokens, regrouped]
  simpa using kept

/-- A call that stands in a slot stands in the argument that the slot makes. -/
theorem exists_argument_of_written {table : PrinterTable} {slots : List Slot}
    (proper : Slot.Proper slots) {slot : Slot} (listed : slot ∈ slots) {s : Site}
    (tracked : s.Tracked table) {inner : List Slot} (closed : Slot.Listed 0 inner)
    {left right : List Token} (tokens : slot.tokens = left ++ s.written inner ++ right) :
    ∃ a ∈ Slot.arguments slots, ∃ lead trail, a.tokens = lead ++ s.written inner ++ trail := by
  obtain ⟨a, member, trimmed⟩ := exists_argument proper listed (t := s.name)
    (by simp [tokens, written]) (by simp [tracked.ident])
  obtain ⟨lead, trail, kept⟩ := trimmed_of_written tracked closed tokens
  exact ⟨a, member, lead, trail, trimmed.trans kept⟩

section Nesting

variable {table : PrinterTable} {s : Site} {slots : List Slot} {a b : Argument}

/-- The arguments of a call stand behind what stands in front of it. -/
theorem precedes_of_before {front : List Token} (ordered : Token.Ordered (front ++ s.written slots))
    (inside : a.tokens ⊆ front) (member : b ∈ Slot.arguments slots) : a.Precedes b := by
  obtain ⟨slot, listed, tokens⟩ := Slot.mem_arguments member
  refine Argument.precedes_of_between ordered inside fun t found => ?_
  have found' := Slot.subset_written listed (slot.trimmed_sublist.subset (tokens ▸ found))
  simp [found']

theorem encloses_of_written (listed : Slot.Listed 0 slots) (ordered : Token.Ordered a.tokens)
    {lead trail : List Token} (tokens : a.tokens = lead ++ s.written slots ++ trail)
    (member : b ∈ Slot.arguments slots) : a.Encloses b := by
  obtain ⟨slot, inside, trimmed⟩ := Slot.mem_arguments member
  obtain ⟨list, closing, whole, _, within⟩ := listed.written_eq
  have around : a.tokens =
      lead ++ s.name :: ((s.comments ++ s.opening :: list) ++ closing :: trail) := by
    rw [tokens, written, whole]
    simp
  refine Argument.encloses_of_between ordered around fun t found => ?_
  simp [within slot inside (slot.trimmed_sublist.subset (trimmed ▸ found))]

end Nesting

/-- The arguments of two calls are apart, or those of the later call stand inside one of the earlier
call. -/
theorem arguments_nest {table : PrinterTable} {first second : Site}
    (same : first.tokens = second.tokens) (tracked₁ : first.Tracked table)
    (tracked₂ : second.Tracked table) (order : first.before.length < second.before.length)
    {slots₁ slots₂ : List Slot} {after₁ after₂ : List Token} (lists₁ : first.Lists slots₁ after₁)
    (lists₂ : second.Lists slots₂ after₂)
    (ordered₁ : Token.Ordered (first.before ++ first.written slots₁))
    (ordered₂ : Token.Ordered (second.before ++ second.written slots₂)) :
    ∀ a ∈ Slot.arguments slots₁, ∀ b ∈ Slot.arguments slots₂, a.Nests b := by
  intro a front b back
  obtain ⟨outer, outerListed, outerTokens⟩ := Slot.mem_arguments front
  have outerSubset : a.tokens ⊆ outer.tokens := outerTokens ▸ outer.trimmed_sublist.subset
  rcases placement same tracked₁ tracked₂ order lists₁ lists₂ with
    ⟨between, behind⟩ | ⟨earlier, s, later, left, right, rfl, tokens⟩
  · -- the second call stands behind the first one
    have whole := lists₁.before_of_behind lists₂ same behind
    refine .inl (precedes_of_before ordered₂ (fun t member => ?_) back)
    have inside := Slot.subset_written outerListed (outerSubset member)
    rw [whole]
    simp [written, inside]
  · have listed := ordered₁.sublist ((first.slots_sublist _).trans
      (List.sublist_append_right first.before _))
    rw [Slot.written_append, Slot.written_cons] at listed
    rcases List.mem_append.1 outerListed with member | member
    · -- it stands in a slot behind that of the argument
      have parts : Token.Ordered ((Slot.written earlier ++ left) ++ second.written slots₂) := by
        refine listed.sublist ?_
        rw [tokens, List.append_assoc (left ++ second.written slots₂),
          List.append_assoc (Slot.written earlier)]
        exact (List.sublist_append_left _ _).append_left _
      refine .inl (precedes_of_before parts (fun t inside => List.mem_append_left _ ?_) back)
      exact Slot.subset_written member (outerSubset inside)
    rcases List.mem_cons.1 member with rfl | member
    · -- it stands in the slot of the argument
      obtain ⟨lead, trail, trimmed⟩ := trimmed_of_written tracked₂ lists₂.listed tokens
      refine .inr (.inr (encloses_of_written lists₂.listed ?_ (outerTokens.trans trimmed) back))
      refine listed.sublist ?_
      rw [outerTokens]
      exact outer.trimmed_sublist.trans ((List.sublist_append_left _ _).trans
        (List.sublist_append_right _ _))
    · -- it stands in a slot in front of that of the argument
      have parts : Token.Ordered (s.tokens ++ s.stop :: Slot.written later) :=
        listed.sublist (List.sublist_append_right _ _)
      obtain ⟨inner, innerListed, innerTokens⟩ := Slot.mem_arguments back
      refine .inr (.inl (Argument.precedes_of_between parts (fun t inside => ?_) fun t inside => ?_))
      · have found := Slot.subset_written innerListed
          (inner.trimmed_sublist.subset (innerTokens ▸ inside))
        rw [tokens]
        simp [written, found]
      · exact Slot.subset_written member (outerSubset inside)

end Site

theorem Call.check_call (c : Call) (source : Source) : (c.check source).call = c := by
  unfold check
  split
  · rfl
  · split
    · rfl
    · split <;> rfl

/-- The verdict on the call at the site, if one is read there. -/
def Site.verdict? (source : Source) (s : Site) : Option Verdict :=
  s.mention.call?.map (·.check source)

theorem Site.verdict?_eq_some_iff {source : Source} {s : Site} {v : Verdict} :
    s.verdict? source = some v ↔ ∃ c, s.mention = .call c ∧ v = c.check source := by
  unfold Site.verdict?
  cases s.mention <;> simp [Mention.call?, eq_comm]

/-- The verdicts of a file are those at its sites. -/
theorem Analysis.verdicts_eq {source : Source} {table : PrinterTable} {tokens : List Token}
    (read : Token.tokenize source.name source.content = .ok tokens) :
    (source.analyze table).verdicts =
      (Site.ofTokens table tokens).filterMap (Site.verdict? source) := by
  unfold Source.analyze
  rw [read]
  dsimp only
  rw [Mention.calls_eq, List.map_filterMap]
  rfl

theorem Site.argument_infix {s : Site} {slots : List Slot} {after lexical : List Token}
    {eof : Token} (lists : s.Lists slots after) (whole : s.tokens = lexical ++ [eof])
    (ends : eof.kind = .eof) : ∀ a ∈ Slot.arguments slots, a.tokens <:+: lexical := by
  intro a member
  obtain ⟨slot, inside, tokens⟩ := Slot.mem_arguments member
  obtain ⟨rest, rfl⟩ := lists.lexical whole ends
  rw [tokens]
  refine slot.trimmed_infix.trans ((Slot.tokens_infix inside).trans ?_)
  exact ⟨s.before ++ s.name :: (s.comments ++ [s.opening]), rest, by simp [Site.written]⟩

namespace Analysis

/-- The arguments of all calls of a file. -/
def arguments (a : Analysis) : List Argument := a.verdicts.flatMap (·.call.arguments)

theorem verdict_eq_check {source : Source} {table : PrinterTable} {v : Verdict}
    (member : v ∈ (source.analyze table).verdicts) : ∃ c, v = Call.check c source := by
  unfold Source.analyze at member
  split at member
  · cases member
  · obtain ⟨c, _, rfl⟩ := List.mem_map.1 member
    exact ⟨c, rfl⟩

/-- The arguments of a verdict are those that the slots at its site make. -/
theorem lists_of_verdict {source : Source} {s : Site} {v : Verdict}
    (found : s.verdict? source = some v) :
    ∃ slots after, s.Lists slots after ∧ v.call.arguments = Slot.arguments slots := by
  obtain ⟨c, mention, rfl⟩ := Site.verdict?_eq_some_iff.1 found
  obtain ⟨slots, after, lists, same, _⟩ := Site.lists_of_call mention
  exact ⟨slots, after, lists, by rw [Call.check_call, same]⟩

variable {source : Source} {table : PrinterTable}

theorem mem_arguments {tokens : List Token}
    (read : Token.tokenize source.name source.content = .ok tokens) {a : Argument}
    (member : a ∈ (source.analyze table).arguments) :
    ∃ s : Site, s.tokens = tokens ∧ ∃ slots after, s.Lists slots after ∧
      a ∈ Slot.arguments slots := by
  obtain ⟨v, verdict, inside⟩ := List.mem_flatMap.1 member
  rw [verdicts_eq read] at verdict
  obtain ⟨s, listed, found⟩ := List.mem_filterMap.1 verdict
  obtain ⟨slots, after, lists, same⟩ := lists_of_verdict found
  exact ⟨s, (Site.mem_ofTokens_iff.1 listed).1, slots, after, lists, same ▸ inside⟩

/-- The arguments of a file stand in it, -/
theorem arguments_contiguous {lexical : List Token} {eof : Token}
    (read : Token.tokenize source.name source.content = .ok (lexical ++ [eof]))
    (ends : eof.kind = .eof) :
    ∀ a ∈ (source.analyze table).arguments, a.tokens <:+: lexical := by
  intro a member
  obtain ⟨s, whole, slots, after, lists, inside⟩ := mem_arguments read member
  exact Site.argument_infix lists whole ends a inside

/-- they begin and end with tokens that are no comments, -/
theorem arguments_trimmed {tokens : List Token}
    (read : Token.tokenize source.name source.content = .ok tokens) :
    ∀ a ∈ (source.analyze table).arguments,
      a.first.kind ≠ .comment ∧ a.last.kind ≠ .comment := by
  intro a member
  obtain ⟨s, _, slots, after, _, inside⟩ := mem_arguments read member
  obtain ⟨slot, _, tokens⟩ := Slot.mem_arguments inside
  constructor
  · refine Token.trimComments_head slot.tokens _ ?_
    rw [Option.mem_def, ← Slot.trimmed, ← tokens]
    exact List.head?_eq_some_head a.nonempty
  · refine Token.trimComments_last slot.tokens _ ?_
    rw [Option.mem_def, ← Slot.trimmed, ← tokens]
    exact List.getLast?_eq_some_getLast a.nonempty

/-- and they stand apart or inside each other. -/
theorem arguments_nest {lexical : List Token} {eof : Token}
    (read : Token.tokenize source.name source.content = .ok (lexical ++ [eof]))
    (ends : eof.kind = .eof) (ordered : Token.Ordered lexical) :
    (source.analyze table).arguments.Pairwise Argument.Nests := by
  have sites {s : Site} (member : s ∈ Site.ofTokens table (lexical ++ [eof])) :
      s.tokens = lexical ++ [eof] ∧ s.Tracked table := Site.mem_ofTokens_iff.1 member
  unfold arguments
  rw [verdicts_eq read]
  refine List.pairwise_flatMap.2 ⟨?_, ?_⟩
  · intro v found
    obtain ⟨s, listed, verdict⟩ := List.mem_filterMap.1 found
    obtain ⟨slots, after, lists, same⟩ := lists_of_verdict verdict
    have inner := (lists.inOrder (sites listed).1 ends ordered).sublist
      ((s.slots_sublist slots).trans (List.sublist_append_right _ _))
    rw [same]
    exact (Slot.arguments_pairwise inner).imp fun precedes => .inl precedes
  · rw [List.pairwise_filterMap]
    refine (Site.ofTokens_pairwise table (lexical ++ [eof])).imp_of_mem ?_
    intro first second front back order v verdict₁ w verdict₂ x inside₁ y inside₂
    obtain ⟨slots₁, after₁, lists₁, same₁⟩ := lists_of_verdict verdict₁
    obtain ⟨slots₂, after₂, lists₂, same₂⟩ := lists_of_verdict verdict₂
    rw [same₁] at inside₁
    rw [same₂] at inside₂
    exact Site.arguments_nest ((sites front).1.trans (sites back).1.symm) (sites front).2
      (sites back).2 order lists₁ lists₂ (lists₁.inOrder (sites front).1 ends ordered)
      (lists₂.inOrder (sites back).1 ends ordered) x inside₁ y inside₂

end Analysis

end FormatLint
