import FormatLint.Proofs.Edit.Splice
import FormatLint.Proofs.Revision.SafeEdits
import FormatLint.Proofs.Revision.Typecast

/-!
Revisions do not conflict. The edits of a call inside another one stand in one argument of it, which
the edits of the outer call leave alone: `Site.safeEdits_apart`. So all edits of a file can be made,
however its calls are nested: `Analysis.revisions_apart`.
-/

namespace FormatLint

namespace Edit

theorem Apart.start_ne {first second : Edit} (apart : Apart first second)
    (front : first.start < first.stop) (back : second.start < second.stop) :
    first.start ≠ second.start := by
  simp only [Apart] at apart
  omega

theorem ofRange_eq_ok {e : Edit} (forward : e.start ≤ e.stop) :
    ofRange e.start e.stop e.replacement = .ok e := by
  simp [ofRange, Nat.not_lt.2 forward]

/-- Edits in a row stand apart. -/
theorem Row.apart {start stop : Nat} {edits : List Edit} (row : Row start stop edits) :
    edits.Pairwise Apart := row.ordered.imp .inl

end Edit

namespace Site

variable {source : Source} {table : PrinterTable}

/-- The edits that turn two calls into safe ones stand apart. -/
theorem safeEdits_apart {first second : Site} (same : first.tokens = second.tokens)
    (tracked₁ : first.Tracked table) (tracked₂ : second.Tracked table)
    (order : first.before.length < second.before.length) {slots₁ slots₂ : List Slot}
    {after₁ after₂ : List Token} (lists₁ : first.Lists slots₁ after₁)
    (lists₂ : second.Lists slots₂ after₂) (proper : Slot.Proper slots₁)
    (ordered₁ : Token.Ordered (first.before ++ first.written slots₁))
    (ordered₂ : Token.Ordered (second.before ++ second.written slots₂)) {edits₁ edits₂ : List Edit}
    (turned₁ : ((first.call slots₁).check source).safeEdits? = some edits₁)
    (turned₂ : ((second.call slots₂).check source).safeEdits? = some edits₂) :
    ∀ d ∈ edits₁, ∀ e ∈ edits₂, d.Apart e := by
  have call₁ := ordered₁.sublist (List.sublist_append_right _ _)
  have call₂ := ordered₂.sublist (List.sublist_append_right _ _)
  obtain ⟨row₁, avoids⟩ := safeEdits_row lists₁.listed call₁ turned₁
  obtain ⟨row₂, _⟩ := safeEdits_row lists₂.listed call₂ turned₂
  obtain ⟨inner, whole, _⟩ := lists₂.listed.closing_eq second.opening
  intro d front e back
  have ends := (row₁.bounds d front).2
  have bounds := row₂.bounds e back
  rcases placement same tracked₁ tracked₂ order lists₁ lists₂ with
    ⟨between, behind⟩ | ⟨earlier, s, later, left, right, parts, tokens⟩
  · -- the second call stands behind the parenthesis that closes the first one
    obtain ⟨list, closes, _⟩ := lists₁.listed.closing_eq first.opening
    have before := lists₁.before_of_behind lists₂ same behind
    have apart := (List.pairwise_append.1 ordered₂.pairwise).2.2
      (Slot.closing first.opening slots₁) (by simp [before, written, closes]) second.name
      (by simp [written])
    exact .inl (by omega)
  · -- the second call stands in an argument of the first one, which is no literal
    have listed : s ∈ slots₁ := by simp [parts]
    obtain ⟨a, member, lead, trail, argument⟩ :=
      exists_argument_of_written proper listed tracked₂ lists₂.listed tokens
    have covers := Argument.span_covers (arguments_between lists₁.listed call₁ a member).1
    have start := (covers second.name (by simp [argument, written])).1
    have stop := (covers (Slot.closing second.opening slots₂) (by
      simp [argument, written, whole])).2
    have coded : second.name ∈ a.code :=
      List.mem_filter.2 ⟨by simp [argument, written], by simp [Token.isComment, tracked₂.ident]⟩
    have avoided := avoids a member ⟨second.name, coded, by simp [tracked₂.ident]⟩ d front
    simp only [Edit.Avoids] at avoided
    simp only [Edit.Apart]
    omega

end Site

namespace Analysis

variable {source : Source} {table : PrinterTable}

/-- The edits of all calls that are turned into safe ones. -/
def safeEdits (a : Analysis) : List Edit := a.verdicts.flatMap fun v => v.safeEdits?.getD []

theorem site_of_safeEdits {s : Site} {v : Verdict} {e : Edit} (found : s.verdict? source = some v)
    (edit : e ∈ v.safeEdits?.getD []) :
    ∃ slots after edits, s.Lists slots after ∧ Slot.Proper slots ∧
      v = (s.call slots).check source ∧ v.safeEdits? = some edits ∧ e ∈ edits := by
  obtain ⟨c, mention, rfl⟩ := Site.verdict?_eq_some_iff.1 found
  obtain ⟨slots, after, later, listed, proper, rfl⟩ := Site.mention_eq_call_iff.1 mention
  cases turned : ((s.call slots).check source).safeEdits? with
  | none =>
      rw [turned] at edit
      cases edit
  | some edits =>
      rw [turned] at edit
      exact ⟨slots, after, edits, ⟨later, listed⟩, proper, rfl, rfl, edit⟩

/-- The edits that turn calls into safe ones stand apart, and none of them is an insertion. -/
theorem safeEdits_apart (source : Source) (table : PrinterTable) :
    (source.analyze table).safeEdits.Pairwise Edit.Apart ∧
      ∀ e ∈ (source.analyze table).safeEdits, e.start < e.stop := by
  cases read : Token.tokenize source.name source.content with
  | error fault =>
      have fatal := (isFatal_iff source table).2 ⟨fault, read⟩
      simp [safeEdits, verdicts_eq_nil_of_isFatal fatal]
  | ok tokens =>
      obtain ⟨gap, lexical, eof, rfl, ends, _, _, laid, _⟩ := Token.laid_of_tokenize read
      have sites {s : Site} (member : s ∈ Site.ofTokens table (lexical ++ [eof])) :
          s.tokens = lexical ++ [eof] ∧ s.Tracked table := Site.mem_ofTokens_iff.1 member
      have row {s : Site} {slots : List Slot} {after : List Token} {edits : List Edit}
          (lists : s.Lists slots after) (whole : s.tokens = lexical ++ [eof])
          (turned : ((s.call slots).check source).safeEdits? = some edits) :=
        (Site.safeEdits_row lists.listed
          ((lists.inOrder whole ends laid.ordered).sublist (List.sublist_append_right _ _))
            turned).1
      unfold safeEdits
      rw [verdicts_eq read]
      refine ⟨List.pairwise_flatMap.2 ⟨?_, ?_⟩, ?_⟩
      · intro v found
        obtain ⟨s, listed, verdict⟩ := List.mem_filterMap.1 found
        cases turned : v.safeEdits? with
        | none => exact .nil
        | some edits =>
            obtain ⟨c, mention, rfl⟩ := Site.verdict?_eq_some_iff.1 verdict
            obtain ⟨slots, after, later, list, _, rfl⟩ := Site.mention_eq_call_iff.1 mention
            exact (row ⟨later, list⟩ (sites listed).1 turned).apart
      · rw [List.pairwise_filterMap]
        refine (Site.ofTokens_pairwise table (lexical ++ [eof])).imp_of_mem ?_
        intro first second front back order v verdict₁ w verdict₂ d edit₁ e edit₂
        obtain ⟨slots₁, after₁, _, lists₁, proper, rfl, turned₁, inside₁⟩ :=
          site_of_safeEdits verdict₁ edit₁
        obtain ⟨slots₂, after₂, _, lists₂, _, rfl, turned₂, inside₂⟩ :=
          site_of_safeEdits verdict₂ edit₂
        exact Site.safeEdits_apart ((sites front).1.trans (sites back).1.symm) (sites front).2
          (sites back).2 order lists₁ lists₂ proper
          (lists₁.inOrder (sites front).1 ends laid.ordered)
          (lists₂.inOrder (sites back).1 ends laid.ordered) turned₁ turned₂ d inside₁ e inside₂
      · intro e member
        obtain ⟨v, found, edit⟩ := List.mem_flatMap.1 member
        obtain ⟨s, listed, verdict⟩ := List.mem_filterMap.1 found
        obtain ⟨slots, after, edits, lists, _, rfl, turned, inside⟩ :=
          site_of_safeEdits verdict edit
        exact (row lists (sites listed).1 turned).forward e inside

/-- The edits that write out casts start at different places, and all of them are insertions. -/
theorem castEdits_starts (source : Source) (table : PrinterTable) :
    ((source.analyze table).verdicts.flatMap (·.castEdits)).Pairwise
        (fun first second => first.start ≠ second.start) ∧
      ∀ e ∈ (source.analyze table).verdicts.flatMap (·.castEdits), e.start = e.stop := by
  rw [castEdits_eq]
  refine ⟨?_, ?_⟩
  · cases read : Token.tokenize source.name source.content with
    | error fault =>
        have fatal := (isFatal_iff source table).2 ⟨fault, read⟩
        simp [casts, verdicts_eq_nil_of_isFatal fatal]
    | ok tokens =>
        obtain ⟨gap, lexical, eof, rfl, ends, _, _, laid, _⟩ := Token.laid_of_tokenize read
        have sublist := casts_sublist source table
        refine castEdits_apart ?_ ?_ laid.ordered
        · exact fun cast member =>
            arguments_contiguous read ends cast.1 (sublist.subset (List.mem_map_of_mem member))
        · exact List.pairwise_map.1 ((arguments_nest read ends laid.ordered).sublist sublist)
  · intro e member
    obtain ⟨cast, _, edit⟩ := List.mem_flatMap.1 member
    simp only [Argument.castEdits, List.mem_cons, List.not_mem_nil, or_false] at edit
    rcases edit with rfl | rfl <;> rfl

/-- Revisions never conflict: no edit ends before it starts, the edits of either revision can all be
made, and no two casts are opened or closed at the same place. -/
theorem revisions_apart (source : Source) (table : PrinterTable) :
    (∀ v ∈ (source.analyze table).verdicts, ∀ e ∈ v.castEdits ++ v.safeEdits?.getD [],
      Edit.ofRange e.start e.stop e.replacement = .ok e) ∧
    (∃ revised, (source.analyze table).typecast = .ok revised) ∧
    (∃ revised, (source.analyze table).optimize = .ok revised) ∧
    ((source.analyze table).verdicts.flatMap (·.castEdits)).Pairwise
      fun first second => first.start ≠ second.start := by
  obtain ⟨starts, insertions⟩ := castEdits_starts source table
  obtain ⟨apart, forward⟩ := safeEdits_apart source table
  have casts : ((source.analyze table).verdicts.flatMap (·.castEdits)).Pairwise Edit.Apart := by
    refine starts.imp_of_mem fun {d e} front back differ => ?_
    have first := insertions d front
    have second := insertions e back
    simp only [Edit.Apart]
    omega
  refine ⟨?_, ?_, ?_, starts⟩
  · intro v listed e member
    refine Edit.ofRange_eq_ok ?_
    rcases List.mem_append.1 member with edit | edit
    · exact Nat.le_of_eq (insertions e (List.mem_flatMap.2 ⟨v, listed, edit⟩))
    · exact Nat.le_of_lt (forward e (List.mem_flatMap.2 ⟨v, listed, edit⟩))
  · exact Edit.exists_applyAll _ (fun e member => Nat.le_of_eq (insertions e member)) casts
  · exact Edit.exists_applyAll _ (fun e member => Nat.le_of_lt (forward e member)) apart

end Analysis

end FormatLint
