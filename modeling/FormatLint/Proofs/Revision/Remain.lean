import FormatLint.Proofs.Revision.Optimize
import FormatLint.Proofs.Revision.Preserve
import FormatLint.Proofs.Revision.TurnedSteps

/-!
What is left when the eligible calls of a file are turned into safe ones: all other calls, and what is
said about them, in the same order. `Analysis.optimize_remains` says so of whole files. None of the
calls that are left is eligible, so there is nothing to turn in the revised file.
-/

namespace FormatLint

/-- Where those tokens stand that stand in front of an offset. -/
def Token.spansBefore (o : Nat) (tokens : List Token) : List Span :=
  (tokens.filter (·.span.start.offset < o)).map (·.span)

namespace Token

variable {o : Nat} {tokens : List Token} {t : Token}

theorem spansBefore_append (front back : List Token) :
    spansBefore o (front ++ back) = spansBefore o front ++ spansBefore o back := by
  rw [spansBefore, List.filter_append, List.map_append]
  rfl

theorem spansBefore_cons {spans : List Span} (rest : (spansBefore o tokens).Sublist spans) :
    (spansBefore o (t :: tokens)).Sublist (t.span :: spans) := by
  rw [spansBefore, List.filter_cons]
  split
  · exact rest.cons_cons t.span
  · exact rest.cons t.span

theorem spansBefore_beyond (words : List Word) : spansBefore o (words.map (beyond o)) = [] := by
  have empty : (words.map (beyond o)).filter (·.span.start.offset < o) = [] := by
    refine List.filter_eq_nil_iff.2 fun t member => ?_
    obtain ⟨word, _, rfl⟩ := List.mem_map.1 member
    simp [beyond]
  rw [spansBefore, empty, List.map_nil]

theorem spansBefore_flatMap {α : Type} (f : α → List Token) (l : List α) :
    spansBefore o (l.flatMap f) = l.flatMap fun x => spansBefore o (f x) := by
  rw [spansBefore, List.filter_flatMap, List.map_flatMap]
  rfl

end Token

open Token (spansBefore spansBefore_append spansBefore_cons spansBefore_beyond spansBefore_flatMap)

namespace TaggedArgument

variable {o : Nat}

theorem written_spans (a : TaggedArgument) :
    spansBefore o (a.written o) = spansBefore o a.tokens := by
  rw [written, spansBefore_append, spansBefore_append, opening, closing, spansBefore_beyond,
    spansBefore_beyond, List.nil_append, List.append_nil]

/-- What becomes of the arguments behind the format stands where they stood, and so does the parenthesis
that closes the list. -/
theorem spans_sublist {spans : List Span} {s : Slot} {trailing : List TaggedArgument}
    (front : spans.Sublist (s.tokens.map (·.span)))
    (inner : ∀ a ∈ trailing, (spansBefore o a.tokens).Sublist (a.argument.code.map (·.span)))
    (opening : Token) :
    (spans ++ (trailing.flatMap (fun a => spansBefore o a.tokens) ++
        [(Slot.closing opening (s :: trailing.map (·.slot))).span])).Sublist
      ((Slot.written (s :: trailing.map (·.slot))).map (·.span)) := by
  induction trailing generalizing spans s with
  | nil =>
      have last : Slot.closing opening [s] = s.stop := rfl
      simpa [last, Slot.written] using front
  | cons a later ih =>
      obtain ⟨here, behind⟩ := List.forall_mem_cons.1 inner
      have rest := ih (s := a.slot) here behind
      have last : Slot.closing opening (s :: (a :: later).map (·.slot)) =
          Slot.closing opening (a.slot :: later.map (·.slot)) := by
        rw [Slot.closing, Slot.closing, List.map_cons, List.getLast?_cons_cons]
      rw [Slot.written_cons, last, List.map_append, List.map_cons, List.flatMap_cons,
        List.append_assoc]
      exact front.append (rest.cons _)

end TaggedArgument

namespace TurnedCall

variable {o : Nat} {verdicts : List Verdict} {c : TurnedCall}

/-- What becomes of the arguments of a call stands where they stood. -/
theorem Sound.list_spans (sound : c.Sound verdicts)
    (inner : ∀ a ∈ c.values, (spansBefore o a.tokens).Sublist (a.argument.code.map (·.span))) :
    (spansBefore o (c.list o)).Sublist ((Slot.written c.slots).map (·.span)) := by
  have trailing : ∀ a ∈ c.trailing, (spansBefore o a.tokens).Sublist
      (a.argument.code.map (·.span)) := fun a member =>
    inner _ (List.mem_append_right _ (List.mem_map_of_mem member))
  have last : Slot.closing c.call.opening (c.literal :: c.trailing.map (·.slot)) =
      c.call.closing := by
    rw [← sound.closing, TurnedCall.slots, Slot.closing, Slot.closing, List.getLast?_append]
    rfl
  have tail := TaggedArgument.spans_sublist (List.nil_sublist (c.literal.tokens.map (·.span)))
    trailing c.call.opening
  rw [last, List.nil_append] at tail
  have front : (spansBefore o (c.fixed.flatMap TurnedArgument.written)).Sublist
      ((Slot.written (c.fixed.map (·.slot))).map (·.span)) := by
    have each : ∀ a ∈ c.fixed, (spansBefore o a.tokens).Sublist
        (a.argument.code.map (·.span)) := fun a member => inner a (List.mem_append_left _ member)
    generalize c.fixed = fixed at each
    induction fixed with
    | nil => exact List.Sublist.refl _
    | cons a fixed ih =>
        obtain ⟨here, later⟩ := List.forall_mem_cons.1 each
        rw [List.flatMap_cons, TurnedArgument.written, List.append_assoc, spansBefore_append,
          List.map_cons, Slot.written_cons, List.map_append]
        exact here.append (spansBefore_cons (ih later))
  have ends : (spansBefore o [Token.beyond o Word.closeBrace, c.call.closing]).Sublist
      [c.call.closing.span] := by
    have brace := spansBefore_beyond (o := o) [Word.closeBrace]
    rw [List.map_singleton] at brace
    rw [← List.singleton_append, spansBefore_append, brace, List.nil_append]
    exact spansBefore_cons (List.Sublist.refl _)
  rw [list, spansBefore_append, spansBefore_append, spansBefore_append, lead, spansBefore_beyond,
    spansBefore_flatMap _ c.trailing, List.nil_append, TurnedCall.slots, Slot.written_append,
    List.map_append]
  simp only [TaggedArgument.written_spans]
  exact front.append (((List.Sublist.refl _).append ends).trans tail)

end TurnedCall

theorem Turned.spans {o : Nat} {verdicts : List Verdict} {tokens tokens' : List Token}
    (turned : Turned o verdicts tokens tokens') :
    (spansBefore o tokens').Sublist (tokens.map (·.span)) := by
  induction turned with
  | nil => exact List.Sublist.refl _
  | keep _ _ ih => exact spansBefore_cons ih
  | @call c rest rest' sound fixed trailing _ ihFixed ihTrailing ih =>
      have list := sound.list_spans (TurnedCall.forall_values
        (P := fun a => (spansBefore o a.tokens).Sublist (a.argument.code.map (·.span)))
        ihFixed ihTrailing)
      have call : (spansBefore o (c.new o)).Sublist (c.old.map (·.span)) :=
        spansBefore_cons (t := c.safeName) (spansBefore_cons list)
      rw [spansBefore_append, List.map_append]
      exact call.append ih

/-- The tokens cover their texts, but for the names of turned calls. -/
theorem Token.Comes.covers {o : Nat} {verdicts : List Verdict} {tokens : List Token} {t : Token}
    (comes : t.Comes o verdicts tokens) (solid : ∀ t ∈ tokens, t.Solid o) :
    t.Sized ∨ (t.kind ≠ .string ∧ t.span.start.offset < t.span.stop.offset) := by
  cases comes with
  | kept inside _ => exact .inl (solid t inside).sized
  | added => exact .inl rfl
  | renamed sound inside =>
      exact .inr ⟨by simp [TurnedCall.safeName, sound.ident], (solid _ inside).forward⟩

namespace Mention

variable {source : Source} {verdicts : List Verdict}

theorem stays_bare (m : Mention) : m.bare.stays verdicts = m.stays verdicts := by cases m <;> rfl

theorem filter_stays {o : Nat} {tokens tokens' : List Token}
    (turned : Turned o verdicts tokens tokens')
    (checked : ∀ v ∈ verdicts, ∃ c, v = Call.check c source) :
    (scan .standard none tokens').filter (stays verdicts) =
      (scan .standard none tokens').filter isCall := by
  refine List.filter_congr fun m found => ?_
  cases m with
  | value | declared | malformed => rfl
  | call c =>
      obtain ⟨s, listed, mention⟩ := site_of_scan found
      obtain ⟨_, tracked⟩ := Site.mem_ofTokens_iff.1 listed
      have name : c.name = s.name := site_name mention
      refine List.all_eq_true.2 fun v member => ?_
      by_cases same : v.call.name = c.name
      · have quiet : v.safeEdits?.isSome = false := by
          have comes := turned.comes c.name (scan_name found)
          generalize inside : c.name = t at comes
          cases comes with
          | kept _ quiet =>
              obtain ⟨c', rfl⟩ := checked v member
              rw [Bool.eq_false_iff]
              intro turned
              obtain ⟨f, eligible⟩ := Call.safeEdits?_isSome_iff.1 turned
              exact quiet (inside ▸ name ▸ tracked.ident) _ member (same.trans inside) f eligible
          | added idle =>
              have listed := tracked.listed
              have ident := tracked.ident
              rw [← name, inside] at listed ident
              cases listed.symm.trans (idle.unlisted ident)
          | renamed sound =>
              have listed := tracked.listed
              rw [← name, inside, sound.safeName_unlisted] at listed
              cases listed
        simp [quiet]
      · simp [same]

end Mention

namespace Analysis

variable {source : Source} {tokens : List Token}

/-- What is found in the text with safe calls: the mentions of all other calls in their order, at the
places where they stood but for what was replaced. -/
theorem optimize_stages (read : Token.tokenize source.name source.content = .ok tokens) :
    ∃ revised others o pairs, (source.analyze .standard).optimize = .ok revised ∧
      Token.tokenize source.name revised = .ok others ∧ Aligned (Places.before o pairs) ∧
      List.Forall₂ ((Places.along (Places.before o pairs)).Mentions
          (Staged o pairs source ⟨source.name, revised⟩ (Call.Stays source)))
        ((Mention.ofTokens .standard tokens).filter
          (Mention.stays (source.analyze .standard).verdicts))
        ((Mention.ofTokens .standard others).filter Mention.isCall) := by
  obtain ⟨gap, lexical, eof, rfl, ends, empty, _, laid, _⟩ := Token.laid_of_tokenize read
  have solid := laid.solid
  rw [Nat.zero_add] at solid
  generalize bound : (Token.textOf gap lexical).length = o at solid
  obtain ⟨_, _, revised, others, tokens', whole, _, made, cut, turned, words⟩ :=
    optimize_turned o read
  obtain ⟨rfl, last⟩ := List.append_inj' whole rfl
  obtain rfl := List.singleton_inj.1 last
  obtain ⟨gap', lexical', eof', rfl, ends', empty', _, laid', _⟩ := Token.laid_of_tokenize cut
  have ordered : Token.Ordered (Token.code lexical) := laid.ordered.sublist List.filter_sublist
  have ordered' : Token.Ordered (Token.code lexical') := laid'.ordered.sublist List.filter_sublist
  have code : ∀ t ∈ Token.code lexical, t.Solid o :=
    fun t member => solid t (List.mem_filter.1 member).1
  have sameWords : tokens'.map Token.word = (Token.code lexical').map Token.word := by
    rw [Token.code_file ends', List.map_append] at words
    exact (List.append_inj' words rfl).1.symm
  have spans : ((Token.code lexical).map (·.span)).Pairwise fun p q =>
      p.stop.offset ≤ q.start.offset := List.pairwise_map.2 ordered.pairwise
  have kept := List.pairwise_map.1 (spans.sublist turned.spans)
  obtain ⟨twins, aligned⟩ := Token.twins_of_words (o := o)
    (fun t member => (turned.comes t member).covers code) kept
    (fun t member => laid'.solid t (List.mem_filter.1 member).1) ordered' sameWords
  have checked : ∀ v ∈ (source.analyze .standard).verdicts, ∃ c, v = Call.check c source :=
    fun v => verdict_eq_check
  have known : ∀ t ∈ Token.code lexical, t.Spelled ∧ t.Bracketed := by
    intro t member
    have inside := (List.mem_filter.1 member).1
    have listed := List.mem_append_left [eof] inside
    exact ⟨Token.spelled_of_tokenize read t listed,
      Token.bracketed_of_tokenize read listed (laid.kind_ne_eof t inside)⟩
  have leaves := turned.leaves checked known [] []
  rw [List.nil_append, List.nil_append, List.append_nil, List.append_nil, Leaves,
    Mention.scan_file ends, List.filter_map, Mention.filter_stays turned checked] at leaves
  have stays : (Mention.stays (source.analyze .standard).verdicts) ∘ Mention.bare =
      Mention.stays (source.analyze .standard).verdicts := funext Mention.stays_bare
  rw [stays] at leaves
  refine ⟨revised, _, o, _, made, cut, aligned, ?_⟩
  refine Mention.stages_found solid ends (fun m member => (List.mem_filter.1 member).1) leaves ?_
  refine List.rel_filter ?_ (Mention.stage_twins ends' source ⟨source.name, revised⟩ twins)
  rintro m m' (_ | _ | _ | _) <;> rfl

end Analysis

/-- The same printer is called with as many arguments, the same format and the same casts, and the same
is said about it. The call can still be turned into a safe one, or still not. -/
structure Verdict.Remains (v v' : Verdict) : Prop where
  printer : v'.call.printer = v.call.printer
  arguments : v'.call.arguments.length = v.call.arguments.length
  content : v'.format.map (fun f => (f.text, f.breaks)) = v.format.map fun f => (f.text, f.breaks)
  casts : v'.pairs.map (fun p => p.cast.map Cast.type) = v.pairs.map fun p => p.cast.map Cast.type
  diagnostics : v'.diagnostics.map (fun d => (d.problem, d.message)) =
    v.diagnostics.map fun d => (d.problem, d.message)
  safe : v'.safeEdits?.isSome = v.safeEdits?.isSome

/-- The second analysis finds what the first one does, but for the calls that can be turned into safe
ones. Nothing that is said about these was an error. -/
structure Analysis.Remains (a a' : Analysis) : Prop where
  fatal : a'.isFatal = false
  verdicts : List.Forall₂ Verdict.Remains (a.verdicts.filter (·.safeEdits?.isNone)) a'.verdicts
  diagnostics : ∃ kept, kept.Sublist a.diagnostics ∧
    a.diagnostics.Perm
      (kept ++ (a.verdicts.filter (·.safeEdits?.isSome)).flatMap (·.diagnostics)) ∧
    a'.diagnostics.map (fun d => (d.problem, d.message)) = kept.map fun d => (d.problem, d.message)
  warnings : ∀ v ∈ a.verdicts, v.safeEdits?.isSome = true → ∀ d ∈ v.diagnostics, d.isError = false

theorem Staged.remains {o : Nat} {pairs : List (Token × Token)} {source source' : Source}
    {c c' : Call} (staged : Staged o pairs source source' (Call.Stays source) c c') :
    (c.check source).Remains (c'.check source') := by
  have same := staged.same fun _ stays => stays.same
  refine ⟨same.printer, same.count, ?_, same.casts, ?_, ?_⟩
  · exact map_eq_of_optionRel (fun f f' spelled => by rw [spelled.text, spelled.breaks]) same.format
  · exact map_eq_of_forall₂ (fun d d' like => by rw [like.problem, like.message]) same.diagnostics
  · rw [Bool.eq_iff_iff, Call.safeEdits?_isSome_iff, Call.safeEdits?_isSome_iff, same.eligible]

namespace Mention

variable {source : Source} {mentions : List Mention}

theorem diagnostics_stays (verdicts : List Verdict) (mentions : List Mention) :
    diagnostics (mentions.filter (stays verdicts)) = diagnostics mentions := by
  rw [diagnostics, diagnostics, List.filterMap_filter]
  refine List.filterMap_congr fun m _ => ?_
  cases m with
  | malformed => rfl
  | value | declared | call => simp [diagnostic?]

theorem calls_stays (names : (((calls mentions).map (·.check source)).map (·.call.name)).Nodup) :
    calls (mentions.filter (stays ((calls mentions).map (·.check source)))) =
      (calls mentions).filter fun c => (c.check source).safeEdits?.isNone := by
  have here : ∀ c ∈ calls mentions, stays ((calls mentions).map (·.check source)) (.call c) =
      (c.check source).safeEdits?.isNone := by
    intro c member
    have own : c.check source ∈ (calls mentions).map (·.check source) := List.mem_map_of_mem member
    have name : (c.check source).call.name = c.name := by rw [Call.check_call]
    rw [Bool.eq_iff_iff, stays, List.all_eq_true]
    constructor
    · intro all
      have unturned := all _ own
      simpa [name] using unturned
    · intro unturned v listed
      by_cases same : v.call.name = c.name
      · have equal := List.inj_on_of_nodup_map names listed own (same.trans name.symm)
        rw [equal]
        simpa [name] using unturned
      · simp [same]
  generalize (calls mentions).map (·.check source) = verdicts at here
  rw [calls] at here ⊢
  rw [calls, List.filterMap_filter, List.filter_filterMap]
  refine List.filterMap_congr fun m member => ?_
  cases m with
  | value | declared | malformed => simp [call?]
  | call c =>
      have same := here c (List.mem_filterMap.2 ⟨_, member, rfl⟩)
      simp [call?, same, Option.filter]

end Mention

namespace Analysis

variable {source : Source} {tokens : List Token}

theorem optimize_nothing {table : PrinterTable}
    (unturned : ∀ v ∈ (source.analyze table).verdicts, v.safeEdits? = none) :
    (source.analyze table).optimize = .ok source.content := by
  have edits : (source.analyze table).verdicts.flatMap (fun v => v.safeEdits?.getD []) = [] :=
    List.flatMap_eq_nil_iff.2 fun v member => by rw [unturned v member, Option.getD_none]
  rw [optimize, edits, analyze_source, Edit.applyAll_nil]

/-- When every call that is found is one that could not be turned before, there is nothing to turn. -/
theorem optimize_again {verdicts : List Verdict}
    (remain : List.Forall₂ Verdict.Remains (verdicts.filter (·.safeEdits?.isNone))
      (source.analyze .standard).verdicts) :
    (source.analyze .standard).optimize = .ok source.content := by
  refine optimize_nothing fun v' member => ?_
  obtain ⟨v, left, remains⟩ := forall₂_exists remain member
  have quiet : v.safeEdits?.isNone = true := (List.mem_filter.1 left).2
  rw [← Option.isNone_iff_eq_none, ← Option.not_isSome, remains.safe, Option.not_isSome, quiet]

/-- Nothing that is said about a call that can be turned is an error. -/
theorem warnings_of_turned (source : Source) (table : PrinterTable) :
    ∀ v ∈ (source.analyze table).verdicts, v.safeEdits?.isSome = true →
      ∀ d ∈ v.diagnostics, d.isError = false := by
  intro v member turned d reported
  obtain ⟨c, rfl⟩ := verdict_eq_check member
  obtain ⟨f, eligible⟩ := Call.safeEdits?_isSome_iff.1 turned
  have clean := List.any_eq_false.1 eligible.clean d reported
  simpa using clean

/-- What is reported on a file is what is said outside of calls, about the calls that cannot be turned,
and about those that can. -/
theorem sort_perm_turned (outside : List Diagnostic) (verdicts : List Verdict) :
    (Diagnostic.sort (outside ++ verdicts.flatMap (·.diagnostics))).Perm
      (Diagnostic.sort (outside ++
          (verdicts.filter (·.safeEdits?.isNone)).flatMap (·.diagnostics)) ++
        (verdicts.filter (·.safeEdits?.isSome)).flatMap (·.diagnostics)) := by
  have parts := List.filter_append_perm (fun v : Verdict => v.safeEdits?.isNone) verdicts
  have turned : verdicts.filter (fun v => !v.safeEdits?.isNone) =
      verdicts.filter (·.safeEdits?.isSome) := List.filter_congr fun v _ => by simp
  rw [turned] at parts
  have all := parts.flatMap_right Verdict.diagnostics
  rw [List.flatMap_append] at all
  refine (sortByPair_perm _ _).trans ((all.symm.append_left _).trans ?_)
  rw [← List.append_assoc]
  exact (sortByPair_perm _ _).symm.append_right _

/-- Turning the eligible calls of a file into safe ones leaves all other calls, and what is said about
them, in the same order. Of what was said about the calls that are turned nothing was an error. There
is nothing left to turn. -/
theorem optimize_remains (read : Token.tokenize source.name source.content = .ok tokens) :
    ∃ revised, (source.analyze .standard).optimize = .ok revised ∧
      Remains (source.analyze .standard) (Source.analyze ⟨source.name, revised⟩ .standard) ∧
      (Source.analyze ⟨source.name, revised⟩ .standard).optimize = .ok revised := by
  obtain ⟨revised, others, o, pairs, made, cut, aligned, stages⟩ := optimize_stages read
  have names : ((source.analyze .standard).verdicts.map (·.call.name)).Nodup :=
    names_nodup read (Token.nodup_of_tokenize read)
  have verdicts : (source.analyze .standard).verdicts =
      (Mention.calls (Mention.ofTokens .standard tokens)).map (·.check source) := by
    rw [analyze_eq source read]
  have verdicts' : (Source.analyze ⟨source.name, revised⟩ .standard).verdicts =
      (Mention.calls (Mention.ofTokens .standard others)).map (·.check ⟨source.name, revised⟩) := by
    rw [analyze_eq ⟨source.name, revised⟩ cut]
  rw [verdicts] at names stages
  have outside := Places.mentions_diagnostics stages
  have calls := Places.mentions_calls stages
  rw [Mention.diagnostics_stays, Mention.diagnostics_filter] at outside
  rw [Mention.calls_stays names, Mention.calls_filter] at calls
  have left : (source.analyze .standard).verdicts.filter (·.safeEdits?.isNone) =
      ((Mention.calls (Mention.ofTokens .standard tokens)).filter fun c =>
        (c.check source).safeEdits?.isNone).map (·.check source) := by
    rw [verdicts, List.filter_map]
    rfl
  have remain : List.Forall₂ Verdict.Remains
      ((source.analyze .standard).verdicts.filter (·.safeEdits?.isNone))
      (Source.analyze ⟨source.name, revised⟩ .standard).verdicts := by
    rw [left, verdicts', List.forall₂_map_left_iff, List.forall₂_map_right_iff]
    exact calls.imp fun c c' => Staged.remains
  have said : List.Forall₂ (Places.along (Places.before o pairs)).Diagnostics
      (((source.analyze .standard).verdicts.filter (·.safeEdits?.isNone)).flatMap (·.diagnostics))
      ((Source.analyze ⟨source.name, revised⟩ .standard).verdicts.flatMap (·.diagnostics)) := by
    rw [left, verdicts', List.flatMap_map, List.flatMap_map]
    exact List.rel_flatMap calls fun c c' staged =>
      (staged.same fun _ stays => stays.same).diagnostics
  have order : (source.analyze .standard).diagnostics = Diagnostic.sort (Mention.diagnostics
      (Mention.ofTokens .standard tokens) ++
        (source.analyze .standard).verdicts.flatMap (·.diagnostics)) := by
    rw [analyze_eq source read]
  have order' : (Source.analyze ⟨source.name, revised⟩ .standard).diagnostics =
      Diagnostic.sort (Mention.diagnostics (Mention.ofTokens .standard others) ++
        (Source.analyze ⟨source.name, revised⟩ .standard).verdicts.flatMap (·.diagnostics)) := by
    rw [analyze_eq ⟨source.name, revised⟩ cut]
  have fatal : (Source.analyze ⟨source.name, revised⟩ .standard).isFatal = false := by
    rw [analyze_eq ⟨source.name, revised⟩ cut]
    rfl
  refine ⟨revised, made, ⟨fatal, remain, ⟨_, ?_, order ▸ sort_perm_turned _ _, ?_⟩,
    warnings_of_turned source .standard⟩, optimize_again remain⟩
  · rw [order]
    exact sortByPair_sublist ((List.Sublist.refl _).append (List.filter_sublist.flatMap _))
  · rw [order']
    exact map_eq_of_forall₂ (fun d d' like => by rw [like.problem, like.message])
      (aligned.inOrder.sort (List.rel_append outside said))

/-- A call that can be turned, as an argument of one that cannot. -/
def printInPrint : List Lexeme :=
  [⟨[], .ident, Text.ofString "printf"⟩, ⟨[], .openParen, Text.ofString "("⟩,
   ⟨[], .ident, Text.ofString "f"⟩, ⟨[], .comma, Text.ofString ","⟩,
   ⟨[.char ' '], .ident, Text.ofString "printf"⟩, ⟨[], .openParen, Text.ofString "("⟩,
   ⟨[], .string, Text.ofString "\"x\""⟩, ⟨[], .closeParen, Text.ofString ")"⟩,
   ⟨[], .closeParen, Text.ofString ")"⟩]

theorem tokenize_printInPrint : Token.tokenize [] (Lexeme.flatten printInPrint) =
    .ok (Token.place [] .first (printInPrint ++ [⟨[], .eof, []⟩])) := by
  refine Lexeme.tokenize_words ?_ []
  repeat' first
    | exact .nil
    | refine .cons (by decide) (by decide) (Head.read_iff_form.1 rfl) ?_

theorem optimize_printInPrint : (Source.analyze ⟨[], Lexeme.flatten printInPrint⟩ .standard).optimize =
    .ok "printf(f, safe_printf(1, \x7b \"x\" \x7d))" := by
  unfold Source.analyze
  dsimp only
  rw [tokenize_printInPrint]
  cbv

/-- The outer call is found again, and what is said about its format. -/
theorem optimize_remains_printInPrint :
    ∃ tokens, Token.tokenize [] (Lexeme.flatten printInPrint) = .ok tokens ∧
      (Source.analyze ⟨[], Lexeme.flatten printInPrint⟩ .standard).optimize =
        .ok "printf(f, safe_printf(1, \x7b \"x\" \x7d))" ∧
      Remains (Source.analyze ⟨[], Lexeme.flatten printInPrint⟩ .standard)
        (Source.analyze ⟨[], "printf(f, safe_printf(1, \x7b \"x\" \x7d))"⟩ .standard) ∧
      (Source.analyze ⟨[], "printf(f, safe_printf(1, \x7b \"x\" \x7d))"⟩ .standard).optimize =
        .ok "printf(f, safe_printf(1, \x7b \"x\" \x7d))" := by
  obtain ⟨revised, made, remains, again⟩ :=
    @optimize_remains ⟨[], Lexeme.flatten printInPrint⟩ _ tokenize_printInPrint
  rw [optimize_printInPrint] at made
  cases made
  exact ⟨_, tokenize_printInPrint, optimize_printInPrint, remains, again⟩

end Analysis

end FormatLint
