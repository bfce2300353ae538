import FormatLint.Proofs.Call.Site

/-!
The layout of an argument list: which slots make arguments, and where these stand in their slots.
`Mention.readCall_eq_call_iff` says for which lists of tokens a call is read.
-/

namespace FormatLint

namespace Token

theorem isComment_iff {t : Token} : t.isComment = true ↔ t.kind = .comment := by
  simp [isComment]

theorem dropWhile_comments_split (tokens : List Token) :
    ∃ lead, tokens = lead ++ tokens.dropWhile isComment ∧ ∀ t ∈ lead, t.kind = .comment := by
  refine ⟨tokens.takeWhile isComment, List.takeWhile_append_dropWhile.symm, ?_⟩
  exact fun t member => isComment_iff.1 (List.all_eq_true.1 List.all_takeWhile t member)

theorem trimComments_split (tokens : List Token) :
    ∃ lead trail, tokens = lead ++ trimComments tokens ++ trail ∧
      (∀ t ∈ lead, t.kind = .comment) ∧ ∀ t ∈ trail, t.kind = .comment := by
  obtain ⟨lead, front, first⟩ := dropWhile_comments_split tokens
  obtain ⟨trail, back, last⟩ :=
    dropWhile_comments_split (tokens.dropWhile isComment).reverse
  refine ⟨lead, trail.reverse, ?_, first, fun t member => last t (List.mem_reverse.1 member)⟩
  have whole := congrArg List.reverse back
  rw [List.reverse_reverse, List.reverse_append] at whole
  rw [trimComments, List.append_assoc, ← whole]
  exact front

theorem dropWhile_head {tokens : List Token} :
    ∀ t ∈ (tokens.dropWhile isComment).head?, t.kind ≠ .comment := by
  intro t first comment
  have stops := List.head?_dropWhile_not isComment tokens
  rw [Option.mem_def.1 first] at stops
  simp [isComment_iff.2 comment] at stops

theorem trimComments_last (tokens : List Token) :
    ∀ t ∈ (trimComments tokens).getLast?, t.kind ≠ .comment := by
  intro t last
  rw [trimComments, List.getLast?_reverse] at last
  exact dropWhile_head t last

theorem trimComments_head (tokens : List Token) :
    ∀ t ∈ (trimComments tokens).head?, t.kind ≠ .comment := by
  intro t first
  rw [trimComments, List.head?_reverse] at first
  cases rest : tokens.dropWhile isComment with
  | nil => simp [rest] at first
  | cons g later =>
      have stops : g.kind ≠ .comment := dropWhile_head g (by rw [rest]; rfl)
      have kept : (g :: later).reverse.dropWhile isComment =
          later.reverse.dropWhile isComment ++ [g] := by
        rw [List.reverse_cons, List.dropWhile_append]
        split
        · rename_i empty
          have alone : [g].dropWhile isComment = [g] :=
            List.dropWhile_cons_of_neg (by simpa [isComment] using stops)
          simp [alone, List.isEmpty_iff.1 empty]
        · rfl
      rw [rest, kept, List.getLast?_append] at first
      cases Option.some.inj first
      exact stops

theorem code_comments {tokens : List Token} (comments : ∀ t ∈ tokens, t.kind = .comment) :
    code tokens = [] :=
  List.filter_eq_nil_iff.2 fun t member => by simp [isComment, comments t member]

theorem code_trimComments (tokens : List Token) : code (trimComments tokens) = code tokens := by
  obtain ⟨lead, trail, whole, first, last⟩ := trimComments_split tokens
  conv => rhs; rw [whole]
  rw [code_append, code_append, code_comments first, code_comments last]
  simp

theorem trimComments_eq_nil_iff {tokens : List Token} :
    trimComments tokens = [] ↔ ∀ t ∈ tokens, t.kind = .comment := by
  constructor
  · intro empty
    obtain ⟨lead, trail, whole, first, last⟩ := trimComments_split tokens
    rw [empty, List.append_nil] at whole
    intro t member
    rw [whole] at member
    rcases List.mem_append.1 member with inside | inside
    · exact first t inside
    · exact last t inside
  · intro comments
    cases rest : trimComments tokens with
    | nil => rfl
    | cons t later =>
        have stops : t.kind ≠ .comment := trimComments_head tokens t (by rw [rest]; rfl)
        obtain ⟨lead, trail, whole, _, _⟩ := trimComments_split tokens
        exact absurd (comments t (by rw [whole, rest]; simp)) stops

end Token

namespace Slot

/-- Nothing but comments stands in the slot. -/
def IsBlank (s : Slot) : Prop := ∀ t ∈ s.tokens, t.kind = .comment

theorem trimmed_eq_nil_iff {s : Slot} : s.trimmed = [] ↔ s.IsBlank :=
  Token.trimComments_eq_nil_iff

/-- A blank slot is the only one. -/
def Proper (slots : List Slot) : Prop := ∀ s ∈ slots, s.IsBlank → slots = [s]

theorem areBare_iff {slots : List Slot} :
    areBare slots = true ↔ ∃ only, slots = [only] ∧ only.IsBlank := by
  unfold areBare
  split
  · simp [trimmed_eq_nil_iff]
  · rename_i several
    simp only [Bool.false_eq_true, false_iff]
    rintro ⟨only, rfl, _⟩
    exact several only rfl

theorem firstEmpty?_eq_none_iff {before : Token} {slots : List Slot} :
    firstEmpty? before slots = none ↔ ∀ s ∈ slots, ¬ s.IsBlank := by
  induction slots generalizing before with
  | nil => simp [firstEmpty?]
  | cons s later ih =>
      unfold firstEmpty?
      split
      · rename_i blank
        simp [trimmed_eq_nil_iff.1 blank]
      · rename_i filled
        rw [trimmed_eq_nil_iff] at filled
        simp [ih, filled]

theorem proper_iff (before : Token) {slots : List Slot} :
    Proper slots ↔ areBare slots = true ∨ firstEmpty? before slots = none := by
  rw [areBare_iff, firstEmpty?_eq_none_iff]
  constructor
  · intro proper
    by_cases blank : ∃ s ∈ slots, s.IsBlank
    · obtain ⟨s, member, blank⟩ := blank
      exact .inl ⟨s, proper s member blank, blank⟩
    · exact .inr fun s member filled => blank ⟨s, member, filled⟩
  · rintro (⟨only, rfl, _⟩ | filled)
    · intro s member _
      rw [List.mem_singleton.1 member]
    · exact fun s member blank => absurd blank (filled s member)

/-- The arguments that the slots make. -/
def arguments (slots : List Slot) : List Argument :=
  if areBare slots then [] else slots.filterMap fun s => Argument.ofTokens? s.trimmed

def closing (opening : Token) (slots : List Slot) : Token :=
  (slots.getLast?.map (·.stop)).getD opening

theorem filterMap_ofTokens? {slots : List Slot} (filled : ∀ s ∈ slots, ¬ s.IsBlank) :
    (slots.filterMap fun s => Argument.ofTokens? s.trimmed).map (·.tokens) =
      slots.map trimmed := by
  induction slots with
  | nil => rfl
  | cons s later ih =>
      have nonempty : s.trimmed ≠ [] :=
        fun empty => filled s List.mem_cons_self (trimmed_eq_nil_iff.1 empty)
      have rest := ih fun other member => filled other (List.mem_cons_of_mem s member)
      simp [Argument.ofTokens?, nonempty, ← rest]

theorem Proper.filled {slots : List Slot} (proper : Proper slots) (several : areBare slots = false) :
    ∀ s ∈ slots, ¬ s.IsBlank := by
  intro s member blank
  have bare := areBare_iff.2 ⟨s, proper s member blank, blank⟩
  rw [several] at bare
  cases bare

theorem arguments_tokens {slots : List Slot} (proper : Proper slots)
    (filled : areBare slots = false) : (arguments slots).map (·.tokens) = slots.map trimmed := by
  simp only [arguments, filled, Bool.false_eq_true, if_false]
  exact filterMap_ofTokens? (proper.filled filled)

/-- Each slot is an argument, or there is nothing in it. -/
theorem code_argument {slots : List Slot} (proper : Proper slots) {s : Slot} (member : s ∈ slots) :
    Token.code s.tokens = [] ∨ ∃ a ∈ arguments slots, Token.code s.tokens = a.code := by
  cases bare : areBare slots with
  | true =>
      obtain ⟨only, rfl, blank⟩ := areBare_iff.1 bare
      rw [List.mem_singleton.1 member]
      exact .inl (Token.code_comments blank)
  | false =>
      have tokens := List.mem_map_of_mem (f := trimmed) member
      rw [← arguments_tokens proper bare] at tokens
      obtain ⟨a, listed, same⟩ := List.mem_map.1 tokens
      refine .inr ⟨a, listed, ?_⟩
      rw [Argument.code, same, trimmed, Token.code_trimComments]

end Slot

namespace Mention

/-- A call is read exactly if a proper argument list is written behind its parenthesis. -/
theorem readCall_eq_call_iff {printer : Printer} {name opening : Token} {rest : List Token}
    {c : Call} :
    readCall printer name opening rest = .call c ↔
      ∃ slots after, rest = Slot.written slots ++ after ∧ Slot.Listed 0 slots ∧
        Slot.Proper slots ∧
        c = ⟨printer, name, opening, Slot.closing opening slots, Slot.arguments slots⟩ := by
  constructor
  · intro read
    unfold readCall at read
    split at read
    · cases read
    · rename_i slots closed
      obtain ⟨listed, after, rfl⟩ := Slot.cut_eq_some_iff.1 closed
      dsimp only at read
      split at read
      · rename_i bare
        cases read
        exact ⟨slots, after, rfl, listed, (Slot.proper_iff opening).2 (.inl bare),
          by simp [Slot.closing, Slot.arguments, bare]⟩
      · rename_i filled
        split at read
        · cases read
        · rename_i noneEmpty
          cases read
          exact ⟨slots, after, rfl, listed, (Slot.proper_iff opening).2 (.inr noneEmpty),
            by simp [Slot.closing, Slot.arguments, filled]⟩
  · rintro ⟨slots, after, rfl, listed, proper, rfl⟩
    unfold readCall
    rw [Slot.cut_eq_some_iff.2 ⟨listed, after, rfl⟩]
    dsimp only
    split
    · rename_i bare
      simp [Slot.closing, Slot.arguments, bare]
    · rename_i filled
      rcases (Slot.proper_iff opening).1 proper with bare | noneEmpty
      · exact absurd bare filled
      · rw [noneEmpty]
        simp [Slot.closing, Slot.arguments, filled]

end Mention

end FormatLint
