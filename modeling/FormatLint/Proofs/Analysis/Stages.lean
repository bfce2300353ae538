import FormatLint.Proofs.Analysis.Twin
import FormatLint.Proofs.Call.Bare

/-!
From the analysis of one file to that of another: the comments are left out, tokens are replaced where
they stand, the tokens are moved to their places in the other file, and the comments of that are put
back. `Mention.stages` puts what is known of the replacement together with what is known of the other
stages, which change nothing.
-/

namespace FormatLint

namespace Places

/-- The same places, as far as they are in front of the offset `o`. -/
def within (o : Nat) : Places where
  Match p p' := p'.start.offset = p.start.offset ∧ p'.stop.offset = p.stop.offset ∧
    p.start.offset < o ∧ p.stop.offset ≤ o
  through first last := ⟨first.1, last.2.1, first.2.2.1, last.2.2.2⟩

/-- The pairs whose first tokens stand in front of the offset `o`. -/
def before (o : Nat) (pairs : List (Token × Token)) : List (Token × Token) :=
  pairs.filter (·.1.span.start.offset < o)

theorem within_along (o : Nat) (pairs : List (Token × Token)) :
    Composes (within o) (along pairs) (along (before o pairs)) := by
  rintro p q r ⟨first, last, start, stop⟩ ⟨⟨t, listed, n, inside, here, there⟩, u, listed', m,
    inside', here', there'⟩
  unfold Inside at inside inside'
  refine ⟨⟨t, List.mem_filter.2 ⟨listed, by simp; omega⟩, n, inside, by omega, there⟩, u,
    List.mem_filter.2 ⟨listed', by simp; omega⟩, m, inside', by omega, there'⟩

/-- Places in tokens in front of an offset are in front of it. -/
theorem along_within {o : Nat} {tokens : List Token} (bound : ∀ t ∈ tokens, t.span.stop.offset ≤ o) :
    Composes same (along (tokens.map fun t => (t, t))) (within o) := by
  rintro p _ r rfl ⟨⟨_, listed, n, inside, start, start'⟩, _, listed', m, inside', stop, stop'⟩
  obtain ⟨t, member, rfl⟩ := List.mem_map.1 listed
  obtain ⟨u, member', rfl⟩ := List.mem_map.1 listed'
  have first := bound t member
  have last := bound u member'
  unfold Inside at inside inside'
  dsimp only at inside inside' start start' stop stop'
  exact ⟨by omega, by omega, by omega, by omega⟩

end Places

/-- The token covers its text, which is not empty and ends in front of the offset `o`. -/
structure Token.Solid (o : Nat) (t : Token) : Prop where
  forward : t.span.start.offset < t.span.stop.offset
  sized : t.Sized
  bound : t.span.stop.offset ≤ o

theorem Token.Laid.solid {gap : Token → Text} {o : Nat} {tokens : List Token} {rest : Text}
    (laid : Token.Laid gap o tokens rest) :
    ∀ t ∈ tokens, t.Solid (o + (Token.textOf gap tokens).length) := by
  induction laid with
  | nil => exact fun t member => absurd member List.not_mem_nil
  | @cons o t later rest blank begins start stop form next ih =>
      have positive := List.length_pos_iff.2 (Lexeme.form_text_ne_nil form)
      have whole : o + (Token.textOf gap (t :: later)).length =
          t.span.stop.offset + (Token.textOf gap later).length := by
        rw [Token.textOf_cons]
        simp only [List.length_append]
        omega
      rw [whole]
      intro u member
      rcases List.mem_cons.1 member with rfl | member
      · exact ⟨by omega, stop, by omega⟩
      · exact ih u member

theorem Token.code_file {lexical : List Token} {eof : Token} (ends : eof.kind = .eof) :
    code (lexical ++ [eof]) = code lexical ++ [eof] := by
  rw [code_append]
  simp [code, isComment, ends]

namespace Slot

theorem cut_eof {eof : Token} (ends : eof.kind = .eof) (d : Nat) (tokens : List Token) :
    cut d (tokens ++ [eof]) = cut d tokens := by
  induction tokens generalizing d with
  | nil => simp [cut, endsStatement, ends]
  | cons t tokens ih => rw [List.cons_append, cut, cut, ih, ih]

end Slot

namespace Mention

variable {table : PrinterTable}

theorem classify_eof {eof : Token} (ends : eof.kind = .eof) (printer : Printer)
    (previous : Option Token) (name : Token) (rest : List Token) :
    classify printer previous name (rest ++ [eof]) = classify printer previous name rest := by
  have solid : eof.isComment = false := by simp [Token.isComment, ends]
  unfold classify
  rw [List.dropWhile_append]
  cases rest.dropWhile Token.isComment with
  | nil =>
      rw [List.isEmpty_nil, if_pos rfl, List.dropWhile_cons_of_neg (by simp [solid])]
      simp [ends]
  | cons next later =>
      rw [List.isEmpty_cons, if_neg Bool.false_ne_true, List.cons_append]
      dsimp only
      split
      · rfl
      · split
        · rfl
        · rw [readCall, readCall, Slot.cut_eof ends]

theorem scan_eof {eof : Token} (ends : eof.kind = .eof) (previous : Option Token)
    (tokens : List Token) :
    scan table previous (tokens ++ [eof]) = scan table previous tokens := by
  induction tokens generalizing previous with
  | nil => simp [scan, ends]
  | cons t tokens ih =>
      rw [List.cons_append, scan, scan, ih]
      simp only [classify_eof ends]

end Mention

/-- What is known of a call of one file and the call of another file that it becomes: what the first
one becomes without its comments is found in the other file. -/
def Staged (o : Nat) (pairs : List (Token × Token)) (source source' : Source)
    (R : Call → Call → Prop) (c c' : Call) : Prop :=
  ∃ b, R c.bare b ∧
    (Places.within o).SameVerdicts (c.check source) (c.bare.check source) ∧
    (Places.along pairs).SameVerdicts (b.check source) (c'.check source')

namespace Mention

variable {table : PrinterTable} {o : Nat} {pairs : List (Token × Token)}
  {lexical lexical' replaced : List Token} {eof eof' : Token} {source source' : Source}
  {R : Call → Call → Prop} {mentions : List Mention}

theorem scan_file (ends : eof.kind = .eof) : scan table none (Token.code lexical) =
    (scan table none (lexical ++ [eof])).map bare := by
  rw [← scan_code, Token.code_file ends, scan_eof ends]

/-- Leaving the comments out of a file. -/
theorem stage_bare (source : Source) (solid : ∀ t ∈ lexical, t.Solid o) (ends : eof.kind = .eof)
    (listed : ∀ m ∈ mentions, m ∈ scan table none (lexical ++ [eof])) :
    List.Forall₂ ((Places.within o).Mentions fun c b => b = c.bare ∧
      (Places.within o).SameVerdicts (c.check source) (b.check source)) mentions
      (mentions.map bare) := by
  have code : ∀ t ∈ Token.code lexical, t.Solid o :=
    fun t member => solid t (List.mem_filter.1 member).1
  have twins : List.Forall₂ (Token.Twin ((Token.code lexical).map fun t => (t, t)))
      (Token.code lexical) (Token.code lexical) := by
    refine List.forall₂_same.2 fun t member => ?_
    have covered := code t member
    exact ⟨List.mem_map_of_mem member, rfl, rfl, covered.forward, covered.forward,
      fun _ => ⟨covered.sized, covered.sized⟩⟩
  have places := Places.along_within fun t member => (code t member).bound
  have scanned : List.Forall₂ ((Places.along ((Token.code lexical).map fun t => (t, t))).Mentions
      (Call.Twin ((Token.code lexical).map fun t => (t, t)))) (scan table none (Token.code lexical))
      (scan table none (Token.code lexical)) := scan_twin rfl twins
  rw [List.forall₂_same] at scanned
  rw [List.forall₂_map_right_iff, List.forall₂_same]
  intro m member
  have here := scanned m.bare (scan_file ends ▸ List.mem_map_of_mem (listed m member))
  cases m with
  | value => exact .value
  | declared => exact .declared
  | malformed d =>
      cases here with
      | malformed like => exact .malformed ((Places.diagnostics_refl d).trans places like)
  | call c =>
      cases here with
      | call twin =>
          refine .call ⟨rfl, ?_⟩
          have bare := (Call.check_bare (trimmed_of_scan (listed _ member)) source source).1
          exact bare.trans places (twin.check source source)

theorem stage_comments (table : PrinterTable) (lexical : List Token) (ends : eof.kind = .eof)
    (source : Source) :
    List.Forall₂ (Places.same.Mentions fun b c => Places.same.SameVerdicts (b.check source)
      (c.check source)) (scan table none (Token.code lexical))
      (scan table none (lexical ++ [eof])) := by
  rw [scan_file ends, List.forall₂_map_left_iff, List.forall₂_same]
  intro m member
  cases m with
  | value => exact .value
  | declared => exact .declared
  | malformed d => exact .malformed (Places.diagnostics_refl d)
  | call c => exact .call (Call.check_bare (trimmed_of_scan member) source source).2

/-- Moving the tokens that replace those of one file to their places in the other one. -/
theorem stage_twins (ends' : eof'.kind = .eof) (source source' : Source)
    (twins : List.Forall₂ (Token.Twin pairs) replaced (Token.code lexical')) :
    List.Forall₂ ((Places.along pairs).Mentions fun b c =>
        (Places.along pairs).SameVerdicts (b.check source) (c.check source'))
      (scan table none replaced) (scan table none (lexical' ++ [eof'])) := by
  have scanned : List.Forall₂ ((Places.along pairs).Mentions (Call.Twin pairs))
      (scan table none replaced) (scan table none (Token.code lexical')) := scan_twin rfl twins
  exact Places.mentions_trans (Places.composes_same (Places.along pairs))
    (T := fun b c => Places.same.SameVerdicts (b.check source') (c.check source'))
    (U := fun b c => (Places.along pairs).SameVerdicts (b.check source) (c.check source'))
    (fun b b' c' twin same => (Call.Twin.check twin source source').trans
      (Places.composes_same _) same)
    scanned (stage_comments table lexical' ends' source')

/-- The mentions of one file that are found in the other one, if they are among the replaced tokens. -/
theorem stages_found {found found' : List Mention} (solid : ∀ t ∈ lexical, t.Solid o)
    (ends : eof.kind = .eof) (listed : ∀ m ∈ mentions, m ∈ scan table none (lexical ++ [eof]))
    (steps : List.Forall₂ (Places.same.Mentions R) (mentions.map bare) found)
    (moved : List.Forall₂ ((Places.along pairs).Mentions fun b c =>
      (Places.along pairs).SameVerdicts (b.check source) (c.check source')) found found') :
    List.Forall₂ ((Places.along (Places.before o pairs)).Mentions (Staged o pairs source source' R))
      mentions found' := by
  have replacement := Places.mentions_trans (Places.composes_same (Places.within o))
    (S := fun c b => b = c.bare ∧
      (Places.within o).SameVerdicts (c.check source) (b.check source))
    (U := fun c b => R c.bare b ∧
      (Places.within o).SameVerdicts (c.check source) (c.bare.check source))
    (fun c b b' here step => ⟨here.1 ▸ step, here.1 ▸ here.2⟩)
    (stage_bare source solid ends listed) steps
  refine Places.mentions_trans (Places.within_along o pairs) ?_ replacement moved
  exact fun c b c' here there => ⟨b, here.1, here.2, there⟩

/-- The mentions of one file that are found in the other one, if that holds the tokens into which
those of the first one are turned. -/
theorem stages (solid : ∀ t ∈ lexical, t.Solid o) (ends : eof.kind = .eof)
    (ends' : eof'.kind = .eof) (listed : ∀ m ∈ mentions, m ∈ scan table none (lexical ++ [eof]))
    (steps : List.Forall₂ (Places.same.Mentions R) (mentions.map bare) (scan table none replaced))
    (twins : List.Forall₂ (Token.Twin pairs) replaced (Token.code lexical')) :
    List.Forall₂ ((Places.along (Places.before o pairs)).Mentions (Staged o pairs source source' R))
      mentions (scan table none (lexical' ++ [eof'])) :=
  stages_found solid ends listed steps (stage_twins ends' source source' twins)

end Mention

namespace Staged

variable {o : Nat} {pairs : List (Token × Token)} {source source' : Source}
  {R : Call → Call → Prop} {c c' : Call}

/-- What is said about a call and about what it becomes, if the same is said about it without its
comments when it is replaced. -/
theorem verdicts (staged : Staged o pairs source source' R c c')
    (step : ∀ b, R c.bare b → Places.same.Verdicts (c.bare.check source) (b.check source)) :
    (Places.along (Places.before o pairs)).Verdicts (c.check source) (c'.check source') := by
  obtain ⟨b, replaced, bare, moved⟩ := staged
  exact ((bare.toVerdicts.trans (Places.composes_same _) (step b replaced)).trans
    (Places.within_along o pairs) moved.toVerdicts)

theorem same (staged : Staged o pairs source source' R c c')
    (step : ∀ b, R c.bare b → Places.same.SameVerdicts (c.bare.check source) (b.check source)) :
    (Places.along (Places.before o pairs)).SameVerdicts (c.check source) (c'.check source') := by
  obtain ⟨b, replaced, bare, moved⟩ := staged
  exact ((bare.trans (Places.composes_same _) (step b replaced)).trans
    (Places.within_along o pairs) moved)

end Staged

end FormatLint
