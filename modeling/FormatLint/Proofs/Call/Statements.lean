import FormatLint.Proofs.Call.Bare
import FormatLint.Proofs.Call.Patch

/-!
What is mentioned in a part of a file depends on what follows only as far as an argument list reaches:
`Mention.scan_append`. No argument list reaches over the end of a statement, so it may end there:
`Mention.scan_append_statement`.
-/

namespace FormatLint

namespace Slot

/-- No argument list that begins in the tokens is cut differently if the rest follows them. -/
def Determined (tokens rest : List Token) : Prop :=
  ∀ front opening later, tokens = front ++ opening :: later → opening.kind = .openParen →
    cut 0 (later ++ rest) = cut 0 later

theorem Determined.later {t : Token} {tokens rest : List Token}
    (determined : Determined (t :: tokens) rest) : Determined tokens rest := by
  rintro front opening later rfl opens
  exact determined (t :: front) opening later rfl opens

/-- An argument list is cut without looking behind the end of a statement. -/
theorem cut_append_statement {d : Nat} {tokens : List Token}
    (ends : ∃ t ∈ tokens, endsStatement t = true) (rest : List Token) :
    cut d (tokens ++ rest) = cut d tokens := by
  induction tokens generalizing d with
  | nil =>
      obtain ⟨_, member, _⟩ := ends
      cases member
  | cons t tokens ih =>
      rw [List.cons_append, cut, cut]
      by_cases here : endsStatement t = true
      · rw [if_pos here, if_pos here]
      · have later : ∃ u ∈ tokens, endsStatement u = true := by
          obtain ⟨u, member, stops⟩ := ends
          rcases List.mem_cons.1 member with rfl | member
          · exact absurd stops here
          · exact ⟨u, member, stops⟩
        rw [ih later, ih later]

/-- The last token that is no comment ends a statement. -/
def EndsStatement (tokens : List Token) : Prop :=
  ∀ last ∈ (Token.code tokens).getLast?, endsStatement last = true

theorem EndsStatement.determined {tokens : List Token} (ends : EndsStatement tokens)
    (rest : List Token) : Determined tokens rest := by
  rintro front opening later rfl opens
  have solid : opening.isComment = false := by simp [Token.isComment, opens]
  refine cut_append_statement ?_ rest
  rw [EndsStatement, Token.code_append, Token.code_cons solid, List.getLast?_append_cons] at ends
  cases final : (Token.code later).getLast? with
  | some last =>
      have stops := ends last (by rw [List.getLast?_cons, final]; rfl)
      exact ⟨last, (List.mem_filter.1 (List.mem_of_getLast? final)).1, stops⟩
  | none =>
      have stops := ends opening (by rw [List.getLast?_cons, final]; rfl)
      simp [endsStatement, Token.isPunct, opens] at stops

end Slot

namespace Mention

variable {table : PrinterTable} {printer : Printer}

theorem classify_append (previous : Option Token) (name : Token) {tokens rest : List Token}
    (determined : Slot.Determined tokens rest) (followed : Token.code tokens ≠ []) :
    classify printer previous name (tokens ++ rest) = classify printer previous name tokens := by
  induction tokens with
  | nil => exact absurd rfl followed
  | cons t tokens ih =>
      unfold classify
      by_cases comment : t.isComment = true
      · rw [List.cons_append, List.dropWhile_cons_of_pos comment, List.dropWhile_cons_of_pos comment]
        rw [Token.code_cons_comment comment] at followed
        exact ih determined.later followed
      · rw [List.cons_append, List.dropWhile_cons_of_neg comment, List.dropWhile_cons_of_neg comment]
        dsimp only
        split
        · rfl
        · rename_i opens
          rw [readCall, readCall, determined [] t tokens rfl (Classical.not_not.1 opens)]

/-- What is mentioned in tokens that do not end with a name does not depend on what follows them, if
no argument list does. -/
theorem scan_append (previous : Option Token) {tokens rest : List Token}
    (determined : Slot.Determined tokens rest)
    (ends : ∀ last ∈ (Token.code tokens).getLast?, last.kind ≠ .ident) :
    scan table previous (tokens ++ rest) =
      scan table previous tokens ++ scan table (previousOf previous tokens) rest := by
  induction tokens generalizing previous with
  | nil => simp [scan, previousOf, Token.code]
  | cons t tokens ih =>
      have later := ih (if t.isComment then previous else some t) determined.later (by
        intro last member
        refine ends last ?_
        have code : Token.code (t :: tokens) = Token.code [t] ++ Token.code tokens :=
          Token.code_append [t] tokens
        rw [code, List.getLast?_append, Option.mem_def.1 member]
        rfl)
      rw [List.cons_append, scan, scan, later, previousOf_cons]
      split
      · rename_i ident
        split
        · have followed : Token.code tokens ≠ [] := by
            intro empty
            refine ends t ?_ ident
            rw [Token.code_cons (by simp [Token.isComment, ident]), empty]
            rfl
          rw [classify_append previous t determined.later followed]
          rfl
        · rfl
      · rfl

/-- What is mentioned up to the end of a statement does not depend on what follows. -/
theorem scan_append_statement (previous : Option Token) {tokens : List Token}
    (ends : Slot.EndsStatement tokens) (rest : List Token) :
    scan table previous (tokens ++ rest) =
      scan table previous tokens ++ scan table (previousOf previous tokens) rest := by
  refine scan_append previous (ends.determined rest) fun last member ident => ?_
  have stops := ends last member
  simp [Slot.endsStatement, Token.isPunct, ident] at stops

end Mention

end FormatLint
