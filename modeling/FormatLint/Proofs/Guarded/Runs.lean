import FormatLint.Proofs.Guarded.Checks
import FormatLint.Proofs.Guarded.Frames
import FormatLint.Proofs.Revision.Apart
import FormatLint.Proofs.Revision.CastTypes

/-!
Whole runs never fail: the analysis of a source text, its report and its two revisions are made
whatever the text, its file name and the table of printers are. See `Analysis.never_fails`.
-/

namespace FormatLint

namespace Guarded

variable {s : Source} {table : PrinterTable}

theorem mentions_ok {tokens : List Token} (read : Token.tokenize s.name s.content = .ok tokens) :
    scan table none tokens = .ok (Mention.ofTokens table tokens) ∧
      ∀ m ∈ Mention.ofTokens table tokens, m.Stands := by
  have row := Token.inRow_of_tokenize read
  obtain ⟨gap, lexical, eof, rfl, ends, _⟩ := Token.laid_of_tokenize read
  refine scan_ok row fun last final => ?_
  rw [List.getLast?_concat] at final
  cases final
  exact ends

theorem calls_stand {tokens : List Token} (read : Token.tokenize s.name s.content = .ok tokens) :
    ∀ c ∈ Mention.calls (Mention.ofTokens table tokens), c.Stands := by
  intro c member
  obtain ⟨m, listed, found⟩ := List.mem_filterMap.1 member
  have stands := (mentions_ok read).2 m listed
  rwa [Mention.call?_eq_some_iff.1 found] at stands

theorem malformed_forward {tokens : List Token}
    (read : Token.tokenize s.name s.content = .ok tokens) :
    ∀ d ∈ Mention.diagnostics (Mention.ofTokens table tokens), d.Forward := by
  intro d member
  obtain ⟨m, listed, found⟩ := List.mem_filterMap.1 member
  have stands := (mentions_ok read).2 m listed
  cases m with
  | malformed e =>
      cases found
      exact stands
  | _ => cases found

theorem unclosed_forward {fault : LexFault}
    (failed : Token.tokenize s.name s.content = .error fault) :
    (Diagnostic.unclosed fault).Forward := by
  intro l label
  rw [List.mem_singleton.1 label]
  unfold Token.tokenize at failed
  split at failed
  · cases failed
  · rename_i unclosed _
    cases failed
    have stop := (Position.first.after unclosed.before).after_offset unclosed.body
    dsimp only
    omega

/-- The analysis is made, and all places that it shows end behind their beginnings. -/
theorem analyze_ok (s : Source) (table : PrinterTable) :
    analyze s table = .ok (s.analyze table) ∧ ∀ d ∈ (s.analyze table).diagnostics, d.Forward := by
  rw [analyze, Source.analyze, tokenize_ok, ok_bind]
  cases read : Token.tokenize s.name s.content with
  | error fault =>
      refine ⟨rfl, fun d member => ?_⟩
      rw [List.mem_singleton.1 member]
      exact unclosed_forward read
  | ok tokens =>
      have checked (c : Call) (found : c ∈ Mention.calls (Mention.ofTokens table tokens)) :=
        check_ok read (calls_stand read c found) (Analysis.argument_tokens found)
      have verdicts : (Mention.calls (Mention.ofTokens table tokens)).mapM (check s) =
          .ok ((Mention.calls (Mention.ofTokens table tokens)).map (·.check s)) :=
        mapM_ok fun c found => (checked c found).1
      dsimp only
      rw [(mentions_ok read).1, ok_bind, verdicts]
      refine ⟨rfl, fun d member => ?_⟩
      rcases List.mem_append.1 (mem_sortByPair.1 member) with malformed | said
      · exact malformed_forward read d malformed
      · obtain ⟨v, listed, inside⟩ := List.mem_flatMap.1 said
        obtain ⟨c, found, rfl⟩ := List.mem_map.1 listed
        exact (checked c found).2 d inside

theorem exists_call {v : Verdict} (member : v ∈ (s.analyze table).verdicts) :
    ∃ c : Call, c.Stands ∧ v = c.check s := by
  unfold Source.analyze at member
  split at member
  · cases member
  · rename_i tokens read
    obtain ⟨c, found, rfl⟩ := List.mem_map.1 member
    exact ⟨c, calls_stand read c found, rfl⟩

theorem edit_ok {e : Edit} (forward : e.start ≤ e.stop) :
    edit e.start e.stop e.replacement = .ok e := by
  rw [edit, Edit.ofRange_eq_ok forward]
  rfl

theorem wrap_ok {a : Argument} (row : Token.InRow a.tokens) (cType : Text) :
    wrap a cType = .ok (a.castEdits cType) := by
  have opening := edit_ok (e := .insertion a.span.start.offset ("(" ++ cType ++ ") (")) (Nat.le_refl _)
  have closing := edit_ok (e := .insertion a.span.stop.offset ")") (Nat.le_refl _)
  dsimp only [Edit.insertion] at opening closing
  rw [wrap, argumentSpan_ok row, ok_bind, opening, ok_bind, closing]
  rfl

theorem castFixed_ok {a : Argument} (row : Token.InRow a.tokens) (cType : Text) :
    castFixed a cType = .ok (if a.cast?.isNone then a.castEdits cType else []) := by
  rw [castFixed, (cast?_ok row).1, ok_bind]
  split
  · exact wrap_ok row cType
  · rfl

theorem castEdits_ok {v : Verdict} (rows : ∀ a ∈ v.call.arguments, Token.InRow a.tokens)
    (paired : ∀ p ∈ v.pairs, p.argument ∈ v.call.arguments) : castEdits v = .ok v.castEdits := by
  have fixed (cast : Argument × Text)
      (member : cast ∈ v.call.fixedArguments.zip v.call.printer.fixedTypes) :
      castFixed cast.1 cast.2 = .ok (if cast.1.cast?.isNone then cast.1.castEdits cast.2 else []) :=
    castFixed_ok (rows cast.1 (List.mem_of_mem_take (List.of_mem_zip member).1)) cast.2
  have pairs (p : Pair) (member : p ∈ v.pairs) : castPaired p =
      .ok (p.demand.cType?.elim [] fun cType =>
        if p.isExplicit then [] else p.argument.castEdits cType) := by
    rw [castPaired]
    cases p.demand.cType? with
    | none => rfl
    | some cType =>
        dsimp only [Option.elim]
        split
        · rfl
        · exact wrap_ok (rows p.argument (paired p member)) cType
  rw [castEdits, Verdict.castEdits]
  split
  · rfl
  · rw [mapM_ok fixed, ok_bind, mapM_ok pairs, ok_bind, Verdict.fixedCastEdits,
      Verdict.pairCastEdits, List.flatMap_def, List.flatMap_def]
    apply congrArg Except.ok
    apply congrArg₂ List.append rfl
    apply congrArg List.flatten
    apply List.map_congr_left
    intro p _
    cases p.demand.cType? <;> rfl

theorem chainEdits_cons (stop : Nat) (a b : Argument) (arguments : List Argument) (t u : Text)
    (tags : List Text) (first second third : Text) (segments : List Text) :
    chainEdits stop (a :: b :: arguments) (t :: u :: tags) (first :: second :: third :: segments) = do
      let before ← argumentSpan a
      let after ← argumentSpan b
      let e ← edit before.stop.offset after.start.offset
        (", " ++ t ++ " \x7d, \"" ++ second ++ "\"" ++ ", \x7b ")
      let later ← chainEdits stop (b :: arguments) (u :: tags) (second :: third :: segments)
      return e :: later := by
  have behind : last (a :: b :: arguments) = last (b :: arguments) := by
    rw [last, last, List.getLast?_cons_cons]
  have tag : last (t :: u :: tags) = last (u :: tags) := by
    rw [last, last, List.getLast?_cons_cons]
  have segment : last (first :: second :: third :: segments) = last (second :: third :: segments) := by
    rw [last, last, List.getLast?_cons_cons]
  rw [chainEdits, chainEdits, behind, tag, segment]
  simp only [List.length_cons, Nat.add_sub_cancel, List.range_succ_eq_map, List.mapM_cons,
    List.mapM_map, bind_assoc, pure_bind]
  rfl

/-- The edits behind the first argument, which its index gives, are those of a walk along them. -/
theorem chainEdits_ok {stop : Nat} {a : Argument} {arguments : List Argument} {tag : Text}
    {tags : List Text} {first second : Text} {segments : List Text}
    (rows : ∀ other ∈ a :: arguments, Token.InRow other.tokens)
    (tagged : tags.length = arguments.length) (cut : segments.length = arguments.length)
    (forward : ∀ e ∈ Verdict.chainEdits stop a.span.stop.offset
      (", " ++ tag ++ " \x7d, \"" ++ second ++ "\"") (arguments.zip (tags.zip segments)),
      e.start ≤ e.stop) :
    chainEdits stop (a :: arguments) (tag :: tags) (first :: second :: segments) =
      .ok (Verdict.chainEdits stop a.span.stop.offset
        (", " ++ tag ++ " \x7d, \"" ++ second ++ "\"") (arguments.zip (tags.zip segments))) := by
  have span := argumentSpan_ok (rows a List.mem_cons_self)
  induction arguments generalizing a tag tags first second segments with
  | nil =>
      obtain rfl := List.length_eq_zero_iff.1 tagged
      obtain rfl := List.length_eq_zero_iff.1 cut
      have ending := edit_ok (forward _ List.mem_cons_self)
      dsimp only at ending
      rw [chainEdits, last_ok (a := a) rfl, last_ok (a := tag) rfl, last_ok (a := second) rfl]
      simp only [ok_bind, span, ending]
      rfl
  | cons b arguments ih =>
      obtain ⟨u, tags, rfl⟩ := List.exists_cons_of_length_eq_add_one tagged
      obtain ⟨third, segments, rfl⟩ := List.exists_cons_of_length_eq_add_one cut
      have here := edit_ok (forward _ List.mem_cons_self)
      dsimp only at here
      have next := argumentSpan_ok (rows b (by simp))
      have later := @ih b u tags second third segments
        (fun other member => rows other (List.mem_cons_of_mem _ member)) (Nat.succ.inj tagged)
        (Nat.succ.inj cut) (fun e member => forward e (List.mem_cons_of_mem _ member)) next
      rw [chainEdits_cons, span, ok_bind, next, ok_bind, here, ok_bind, later]
      rfl

/-- The edits of a call that is turned, and of one that is left alone, can be made. -/
theorem safeEdits_ok {c : Call} (stands : c.Stands)
    (forward : ∀ e ∈ (c.check s).safeEdits?.getD [], e.start ≤ e.stop) :
    safeEdits (c.check s) = .ok ((c.check s).safeEdits?.getD []) := by
  cases turned : (c.check s).safeEdits? with
  | none =>
      have whole : join c.name.span c.closing.span = .ok (c.name.span.through c.closing.span) :=
        join_ok ((List.pairwise_cons.1 stands.ends).1 _ (by simp))
      unfold Verdict.safeEdits? at turned
      unfold safeEdits
      split
      · rename_i format place tagged
        rw [format, place, tagged] at turned
        cases turned
      · rw [Call.check_call, whole]
        rfl
  | some edits =>
      obtain ⟨f, a, tags, eligible, place, _, families, tagged, cut, rfl⟩ :=
        Call.safeEdits?_inversion turned
      obtain ⟨tags', known, families'⟩ := Call.tags?_of_eligible eligible
      obtain rfl : tags' = tags :=
        List.map_injective_iff.2 (Option.some_injective _) (families'.trans families.symm)
      have format := argumentSpan_ok (stands.tokens a (List.mem_of_getElem? place))
      have trailing : ∀ other ∈ c.trailingArguments, Token.InRow other.tokens :=
        fun other member => stands.tokens other (List.mem_of_mem_drop member)
      rw [turned, Option.getD_some] at forward
      rw [Option.getD_some]
      have name := edit_ok (forward _ List.mem_cons_self)
      dsimp only at name
      obtain ⟨segment, segments, pieces⟩ := List.exists_cons_of_length_eq_add_one cut
      rw [safeEdits, eligible.format, Call.check_call, place, known]
      dsimp only
      rw [pieces] at cut forward ⊢
      generalize c.trailingArguments = arguments at trailing tagged cut forward ⊢
      rw [get_ok (a := segment) rfl, ok_bind, format, ok_bind, name, ok_bind]
      cases arguments with
      | nil =>
          have only := edit_ok (forward _ (List.mem_cons_of_mem _ List.mem_cons_self))
          dsimp only [List.headD_cons] at only
          rw [if_pos rfl, only]
          rfl
      | cons first later =>
          obtain ⟨tag, tags, rfl⟩ := List.exists_cons_of_length_eq_add_one tagged
          obtain ⟨second, segments, rfl⟩ :=
            List.exists_cons_of_length_eq_add_one (Nat.succ.inj cut)
          have opening := edit_ok (forward _ (List.mem_cons_of_mem _ List.mem_cons_self))
          dsimp only [List.headD_cons] at opening
          have chain := @chainEdits_ok _ _ _ _ _ segment _ _ trailing (Nat.succ.inj tagged)
            (Nat.succ.inj (Nat.succ.inj cut)) fun e member =>
              forward e (List.mem_cons_of_mem _ (List.mem_cons_of_mem _ member))
          rw [if_neg (List.cons_ne_nil _ _), get_ok (a := first) rfl, ok_bind,
            argumentSpan_ok (trailing first List.mem_cons_self), ok_bind, opening, ok_bind, chain]
          rfl

theorem typecast_ok (s : Source) (table : PrinterTable) :
    ∃ text, typecast (s.analyze table) = .ok text ∧ (s.analyze table).typecast = .ok text := by
  obtain ⟨starts, insertions⟩ := Analysis.castEdits_starts s table
  have edits : (s.analyze table).verdicts.mapM castEdits =
      .ok ((s.analyze table).verdicts.map (·.castEdits)) := by
    refine mapM_ok fun v member => ?_
    obtain ⟨c, stands, rfl⟩ := exists_call member
    obtain ⟨demands, pairs⟩ := c.check_pair s
    refine castEdits_ok (by rw [Call.check_call]; exact stands.tokens) fun p paired => ?_
    rw [pairs] at paired
    obtain ⟨item, inside, rfl⟩ := List.mem_map.1 paired
    rw [Call.check_call]
    exact List.mem_of_mem_drop (List.of_mem_zip inside).1
  obtain ⟨text, made⟩ := Edit.exists_applyAll (s.analyze table).source.content
    (fun e member => Nat.le_of_eq (insertions e member)) <|
    starts.imp_of_mem fun {d e} front back differ => by
      have first := insertions d front
      have second := insertions e back
      simp only [Edit.Apart]
      omega
  refine ⟨text, ?_, made⟩
  rw [typecast, edits, ok_bind, ← List.flatMap_def, made]
  rfl

theorem optimize_ok (s : Source) (table : PrinterTable) :
    ∃ text, optimize (s.analyze table) = .ok text ∧ (s.analyze table).optimize = .ok text := by
  obtain ⟨apart, forward⟩ := Analysis.safeEdits_apart s table
  have edits : (s.analyze table).verdicts.mapM safeEdits =
      .ok ((s.analyze table).verdicts.map fun v => v.safeEdits?.getD []) := by
    refine mapM_ok fun v member => ?_
    obtain ⟨c, stands, rfl⟩ := exists_call member
    exact safeEdits_ok stands fun e edit =>
      Nat.le_of_lt (forward e (List.mem_flatMap.2 ⟨_, member, edit⟩))
  obtain ⟨text, made⟩ := Edit.exists_applyAll (s.analyze table).source.content
    (fun e member => Nat.le_of_lt (forward e member)) apart
  refine ⟨text, ?_, made⟩
  rw [optimize, edits, ok_bind, ← List.flatMap_def]
  exact congrArg _ made

end Guarded

namespace Analysis

/-- Nothing fails, whatever the text, its file name and the table of printers are: a text is analysed
(one that has a form without its end has that as its only diagnostic), its report and its revisions
are made, and each diagnostic can be shown with any number of lines around it. All places that are
shown stand in the file, in order, and where the table of lines has them. -/
theorem never_fails (source : Source) (table : PrinterTable) :
    Guarded.analyze source table = .ok (source.analyze table) ∧
    (∀ fault, (source.analyze table).fault = some fault →
      (source.analyze table).diagnostics = [.unclosed fault]) ∧
    Guarded.report (source.analyze table) = .ok (source.analyze table).report ∧
    (∃ text, Guarded.typecast (source.analyze table) = .ok text ∧
      (source.analyze table).typecast = .ok text) ∧
    (∃ text, Guarded.optimize (source.analyze table) = .ok text ∧
      (source.analyze table).optimize = .ok text) ∧
    ∀ d ∈ (source.analyze table).diagnostics,
      (∀ context, Guarded.render source d context = .ok (d.render source context)) ∧
      ∀ l ∈ d.labels, l.span.file = source.name ∧
        l.span.start.offset ≤ l.span.stop.offset ∧ l.span.stop.offset ≤ source.content.length ∧
        source.locate l.span.start.offset = .ok l.span.start ∧
        source.locate l.span.stop.offset = .ok l.span.stop := by
  obtain ⟨analyzed, forward⟩ := Guarded.analyze_ok source table
  refine ⟨analyzed, fun fault fatal => ?_, Guarded.report_ok _, Guarded.typecast_ok source table,
    Guarded.optimize_ok source table, fun d member => ⟨Guarded.render_ok source d, fun l label => ?_⟩⟩
  · unfold Source.analyze at fatal ⊢
    split at fatal
    · rename_i failed
      cases fatal
      rfl
    · cases fatal
  · have order := forward d member l label
    have still : l.span.relocate source.exact = l.span :=
      congrArg Label.span (labels_exact member l label)
    have start := Source.locate_of_exact (congrArg Span.start still)
    have stop := Source.locate_of_exact (congrArg Span.stop still)
    exact ⟨(congrArg Span.file still).symm, order, stop.1, start.2, stop.2⟩

end Analysis

end FormatLint
