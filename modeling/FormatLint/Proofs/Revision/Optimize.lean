import FormatLint.Proofs.Call.Within
import FormatLint.Proofs.Revision.CallPlan

/-!
What turning calls into safe ones does to a file. `Analysis.optimize_safeForm` says that the revised
text is read as the safe form of the file: every eligible call is turned, to any depth, and all other
words but comments stay.
-/

namespace FormatLint

open Token (Laid textOf)
open Verdict (editsAt)

variable {bound : Nat} {verdicts : List Verdict}

theorem exists_seats {slots : List Slot} {arguments : List Argument}
    (same : slots.map (·.trimmed) = arguments.map (·.tokens)) :
    ∃ seats : List Seat, seats.map (·.slot) = slots ∧ seats.map (·.argument) = arguments ∧
      ∀ e ∈ seats, e.argument.tokens = e.slot.trimmed := by
  induction slots generalizing arguments with
  | nil =>
      cases arguments with
      | nil => exact ⟨[], rfl, rfl, by simp⟩
      | cons a arguments => cases same
  | cons s slots ih =>
      cases arguments with
      | nil => cases same
      | cons a arguments =>
          obtain ⟨here, rest⟩ := List.cons.inj same
          obtain ⟨seats, rfl, rfl, tokens⟩ := ih rest
          exact ⟨⟨s, a⟩ :: seats, rfl, rfl, List.forall_mem_cons.2 ⟨here.symm, tokens⟩⟩

/-- Each argument behind the format gets its tag and segment. -/
theorem exists_safeSeats {slots : List Slot} {arguments : List Argument} {tags segments : List Text}
    (same : slots.map (·.trimmed) = arguments.map (·.tokens))
    (tagged : ∀ tag ∈ tags, ∃ family : Family, family.tag = tag)
    (counted : tags.length = arguments.length) (segmented : segments.length = arguments.length) :
    ∃ seats : List SafeSeat, seats.map (·.slot) = slots ∧ seats.map (·.argument) = arguments ∧
      seats.map (·.family.tag) = tags ∧ seats.map (·.segment) = segments ∧
      ∀ e ∈ seats, e.argument.tokens = e.slot.trimmed := by
  obtain ⟨seats, rfl, rfl, tokens⟩ := exists_seats same
  rw [List.length_map] at counted segmented
  clear same
  induction seats generalizing tags segments with
  | nil =>
      obtain rfl := List.eq_nil_of_length_eq_zero counted
      obtain rfl := List.eq_nil_of_length_eq_zero segmented
      exact ⟨[], rfl, rfl, rfl, rfl, by simp⟩
  | cons e seats ih =>
      obtain ⟨tag, tags, rfl⟩ := List.exists_cons_of_length_eq_add_one counted
      obtain ⟨segment, segments, rfl⟩ := List.exists_cons_of_length_eq_add_one segmented
      obtain ⟨family, rfl⟩ := tagged tag List.mem_cons_self
      obtain ⟨here, later⟩ := List.forall_mem_cons.1 tokens
      obtain ⟨safe, slots, arguments, rfl, rfl, tokens⟩ := ih
        (fun tag member => tagged tag (List.mem_cons_of_mem _ member)) later (Nat.succ.inj counted)
        (Nat.succ.inj segmented)
      refine ⟨⟨e, family, segment⟩ :: safe, ?_, ?_, rfl, rfl, List.forall_mem_cons.2 ⟨here, tokens⟩⟩
      · rw [List.map_cons, List.map_cons, slots]
      · rw [List.map_cons, List.map_cons, arguments]

theorem SafeSeat.map_tagged (seats : List SafeSeat) : seats.map tagged =
    (seats.map (·.argument)).zip ((seats.map (·.family.tag)).zip (seats.map (·.segment))) := by
  rw [List.zip_map', List.zip_map']
  rfl

theorem Turnable.nil : Turnable bound verdicts [] := fun _ _ _ _ _ _ =>
  ⟨[], [], [], [], ⟨.nil, .nil⟩, fun _ next => next rfl, .refl _, .nil, rfl⟩

/-- A token that no eligible call begins with stays. -/
theorem Turnable.keep {t : Token} {more : List Token} (quiet : editsAt verdicts t = [])
    (other : ∀ v ∈ verdicts, v.call.name = t → ∀ f, ¬ v.IsEligible f)
    (turnable : Turnable bound verdicts more) : Turnable bound verdicts (t :: more) := by
  intro gap o rest rest' laid next
  cases laid with
  | cons blank begins start stop form laid =>
  obtain ⟨edits, after, words, tokens, turns⟩ := turnable laid (by
    intro last final
    refine next last ?_
    rw [List.getLast?_cons, Option.mem_def.1 final]
    rfl)
  have kept := Revises.keep t.span.start.offset begins form (turns.follows t.kind (by
    rintro rfl
    exact next t rfl))
  have revises := Revises.gaps blank (start ▸ kept.append (stop ▸ turns.rewrites))
  have here : (t :: more).flatMap (editsAt verdicts) = more.flatMap (editsAt verdicts) := by
    rw [List.flatMap_cons, quiet, List.nil_append]
  rw [← Token.textOf_cons] at revises
  refine ⟨_, _, _, if t.isComment then tokens else t :: tokens, revises.toRewrites, fun previous _ =>
    revises.follows previous, here ▸ turns.edits, ?_, ?_⟩ <;> cases comment : t.isComment
  · rw [Token.code_cons comment]
    exact .keep other turns.turned
  · rw [Token.code_cons_comment comment]
    exact turns.turned
  · have word : t.kind ≠ .comment := fun kind => by simp [Token.isComment, kind] at comment
    simp [turns.words, Word.code, Token.word, word]
  · simp [turns.words, Word.code, Token.isComment_iff.1 comment]

theorem filter_key_eq {α β : Type} [DecidableEq β] {key : α → β} {elements : List α}
    (distinct : (elements.map key).Nodup) {x : α} (member : x ∈ elements) :
    elements.filter (key · = key x) = [x] := by
  obtain ⟨front, back, rfl⟩ := List.append_of_mem member
  rw [List.map_append, List.map_cons, List.nodup_append, List.nodup_cons] at distinct
  obtain ⟨_, ⟨fresh, _⟩, apart⟩ := distinct
  have left : front.filter (key · = key x) = [] := List.filter_eq_nil_iff.2 fun y inside => by
    simpa using apart (key y) (List.mem_map_of_mem inside) (key x) List.mem_cons_self
  have right : back.filter (key · = key x) = [] := List.filter_eq_nil_iff.2 fun y inside => by
    rw [decide_eq_true_eq]
    exact fun same => fresh (same ▸ List.mem_map_of_mem inside)
  rw [List.filter_append, List.filter_cons_of_pos (by simp), left, right]
  rfl

theorem Slot.Listed.closing_kind {d : Nat} {slots : List Slot} (listed : Listed d slots)
    (opening : Token) :
    (closing opening slots).kind = .closeParen ∧ closing opening slots ∈ written slots := by
  obtain ⟨inner, last, written, closes, _⟩ := listed.written_eq
  obtain ⟨_, whole, _⟩ := listed.closing_eq opening
  rw [written] at whole
  obtain rfl := List.singleton_inj.1 (List.append_inj' whole rfl).2
  exact ⟨closes, by simp [written]⟩

theorem Slot.length_le_written {slots : List Slot} {s : Slot} (member : s ∈ slots) :
    s.tokens.length ≤ (written slots).length := by
  obtain ⟨earlier, later, rfl⟩ := List.append_of_mem member
  simp only [written_append, written_cons, List.length_append]
  omega

/-- Where the format of a call stands among the slots of its argument list. -/
theorem Site.exists_slots {s : Site} {slots : List Slot} {a : Argument} (proper : Slot.Proper slots)
    (place : (s.call slots).format? = some a) : ∃ front mid back, slots = front ++ mid :: back ∧
      (∀ slot ∈ slots, ¬ slot.IsBlank) ∧
      front.map (·.trimmed) = (s.call slots).fixedArguments.map (·.tokens) ∧
      mid.trimmed = a.tokens ∧
      back.map (·.trimmed) = (s.call slots).trailingArguments.map (·.tokens) := by
  have parts := (s.call slots).arguments_eq
  rw [place] at parts
  change Slot.arguments slots = _ at parts
  have filled : Slot.areBare slots = false := by
    refine Bool.eq_false_iff.2 fun bare => ?_
    rw [Slot.arguments, if_pos bare] at parts
    simp at parts
  have made := Slot.arguments_tokens proper filled
  rw [parts, List.map_append, List.map_append] at made
  obtain ⟨front', back, arranged, frontMade, backMade⟩ := List.map_eq_append_iff.1 made.symm
  obtain ⟨front, literal, rfl, fixedMade, literalMade⟩ := List.map_eq_append_iff.1 frontMade
  obtain ⟨mid, rfl, midMade⟩ := List.map_eq_singleton_iff.1 literalMade
  refine ⟨front, mid, back, by rw [arranged, List.append_assoc]; rfl, fun slot member blank => ?_,
    fixedMade, midMade, backMade⟩
  have trimmed := List.mem_map_of_mem (f := Slot.trimmed) member
  rw [Slot.trimmed_eq_nil_iff.2 blank, ← made, ← List.map_append, ← List.map_append] at trimmed
  obtain ⟨b, _, empty⟩ := List.mem_map.1 trimmed
  exact b.nonempty empty

/-- Tags are those of families. -/
theorem Demand.family_of_tags {tags : List Text} {demands : List Demand}
    (tagged : tags.map some = demands.map fun d => d.family?.map Family.tag) :
    ∀ tag ∈ tags, ∃ family : Family, family.tag = tag := by
  intro tag member
  have named := List.mem_map_of_mem (f := some) member
  rw [tagged] at named
  obtain ⟨d, _, named⟩ := List.mem_map.1 named
  obtain ⟨family, _, same⟩ := Option.map_eq_some_iff.1 named
  exact ⟨family, same⟩

theorem Verdict.editsAt_name (distinct : (verdicts.map (·.call.name)).Nodup) {v : Verdict}
    (listed : v ∈ verdicts) {edits : List Edit} (turned : v.safeEdits? = some edits) :
    editsAt verdicts v.call.name = edits := by
  rw [editsAt, filter_key_eq distinct listed, List.flatMap_singleton, turned]
  rfl

theorem Site.Lists.closing_word {source : Source} {s : Site} {slots : List Slot} {after : List Token}
    (lists : s.Lists slots after)
    (read : Token.tokenize source.name source.content = .ok s.tokens) :
    (Slot.closing s.opening slots).word = Word.closeParen := by
  obtain ⟨closes, last⟩ := lists.listed.closing_kind s.opening
  have spelled := Token.spelled_of_tokenize read (Slot.closing s.opening slots)
    (by rw [lists.tokens_eq, written]; simp [last])
  rw [Token.word]
  exact Prod.ext closes (spelled.closing closes)

/-- A call that is turned, as it stands at its site. -/
theorem Site.exists_plan {source : Source} {tokens : List Token} {s : Site} {slots : List Slot}
    {after : List Token} {edits : List Edit}
    (read : Token.tokenize source.name source.content = .ok tokens) (whole : s.tokens = tokens)
    (tracked : s.Tracked .standard) (lists : s.Lists slots after) (proper : Slot.Proper slots)
    (listed : (s.call slots).check source ∈ verdicts)
    (distinct : (verdicts.map (·.call.name)).Nodup)
    (turned : ((s.call slots).check source).safeEdits? = some edits)
    (turnable : ∀ slot ∈ slots, Turnable bound verdicts slot.tokens ∧
      Turnable bound verdicts slot.trimmed) :
    ∃ p : CallPlan, p.Sound bound verdicts ∧ p.tokens = s.written slots := by
  subst whole
  obtain ⟨f, a, tags, eligible, place, spelled, families, counted, segmented, planned⟩ :=
    Call.safeEdits?_inversion turned
  obtain ⟨front, mid, back, parts, filled, fixedMade, middle, backMade⟩ := exists_slots proper place
  obtain ⟨fixed, fixedSlots, fixedArguments, fixedTokens⟩ := exists_seats fixedMade
  obtain ⟨segment, segments, pieces⟩ := List.exists_cons_of_length_eq_add_one segmented
  obtain ⟨safe, safeSlots, safeArguments, rfl, rfl, safeTokens⟩ :=
    exists_safeSeats backMade (Demand.family_of_tags families) counted (by
      rw [pieces] at segmented
      exact Nat.succ.inj segmented)
  obtain ⟨lead, trail, around, comments, comments'⟩ := Token.trimComments_split mid.tokens
  let p : CallPlan := ⟨(s.call slots).check source, f, s.comments, fixed, lead, a, trail, mid.stop,
    segment, safe⟩
  have call : p.call = s.call slots := Call.check_call _ _
  have same : p.slots = slots := by
    change fixed.map (·.slot) ++ ⟨lead ++ a.tokens ++ trail, mid.stop⟩ :: safe.map (·.slot) = slots
    rw [fixedSlots, safeSlots, ← middle, Slot.trimmed, ← around, parts]
  -- The seats around the format are the slots around it.
  have inFront {e : Seat} (member : e ∈ fixed) : e.slot ∈ slots := by
    have seated : e.slot ∈ front := fixedSlots ▸ List.mem_map_of_mem member
    rw [parts]
    exact List.mem_append_left _ seated
  have inBack {e : SafeSeat} (member : e ∈ safe) : e.slot ∈ slots := by
    have seated : e.slot ∈ back := safeSlots ▸ List.mem_map_of_mem member
    rw [parts]
    exact List.mem_append_right _ (List.mem_cons_of_mem _ seated)
  have enclosed := FormatString.segments_enclosed read (fun t member => by
    rw [← middle] at member
    exact slot_token_mem lists.later (by simp [parts]) (mid.trimmed_sublist.subset member)) spelled
  rw [pieces] at enclosed
  have sound : p.Sound bound verdicts := {
    listed
    eligible
    ident := call ▸ tracked.ident
    printer := call ▸ tracked.listed
    comments := by
      intro t member
      rcases List.mem_append.1 member with member | member
      · rcases List.mem_append.1 member with member | member
        · exact tracked.comments t member
        · exact comments t member
      · exact comments' t member
    opens := call ▸ tracked.opens
    slots := same ▸ lists.listed
    filled := same ▸ filled
    closing := by
      rw [same, call]
      rfl
    closes := call ▸ lists.closing_word read
    before := call ▸ fixedArguments
    literal := call ▸ place
    strings := (FormatString.ofArgument?_inversion spelled).1
    behind := call ▸ safeArguments
    seats := fun e member => ⟨fixedTokens e member, (turnable e.slot (inFront member)).1⟩
    safe := by
      intro e member
      refine ⟨safeTokens e member, ?_, (turnable e.slot (inBack member)).2, ?_⟩
      · rcases lists.listed.stop_kind e.slot (inBack member) with kind | kind <;> simp [kind]
      · exact enclosed _ (List.mem_cons_of_mem _ (List.mem_map_of_mem member))
    tags := by
      rw [← families, List.map_map]
      rfl
    segments := pieces
    segment := enclosed _ List.mem_cons_self
    edits := by
      have tagged : p.trailing.map SafeSeat.tagged = (s.call slots).trailingArguments.zip
          ((safe.map (·.family.tag)).zip f.segments.tail) := by
        rw [SafeSeat.map_tagged, ← safeArguments, pieces]
        rfl
      refine (Verdict.editsAt_name distinct listed turned).trans ?_
      rw [planned, CallPlan.edits, call, tagged, CallPlan.lead, pieces]
      rfl }
  refine ⟨p, sound, ?_⟩
  rw [CallPlan.tokens, same, call]
  rfl

namespace Analysis

variable {source : Source} {tokens : List Token} {table : PrinterTable}

theorem exists_site (read : Token.tokenize source.name source.content = .ok tokens) {v : Verdict}
    (member : v ∈ (source.analyze table).verdicts) :
    ∃ s ∈ Site.ofTokens table tokens, ∃ slots after, s.Lists slots after ∧ Slot.Proper slots ∧
      v = (s.call slots).check source ∧ v.call.name = s.name := by
  rw [verdicts_eq read] at member
  obtain ⟨s, listed, verdict⟩ := List.mem_filterMap.1 member
  obtain ⟨c, mention, rfl⟩ := Site.verdict?_eq_some_iff.1 verdict
  obtain ⟨slots, after, later, list, proper, rfl⟩ := Site.mention_eq_call_iff.1 mention
  exact ⟨s, listed, slots, after, ⟨later, list⟩, proper, rfl, by rw [Call.check_call]; rfl⟩

theorem names_ident (read : Token.tokenize source.name source.content = .ok tokens) :
    ∀ v ∈ (source.analyze table).verdicts, v.call.name.kind = .ident := by
  intro v member
  obtain ⟨s, listed, _, _, _, _, _, name⟩ := exists_site read member
  rw [name]
  exact (Site.mem_ofTokens_iff.1 listed).2.ident

theorem names_nodup (read : Token.tokenize source.name source.content = .ok tokens)
    (distinct : tokens.Nodup) : ((source.analyze table).verdicts.map (·.call.name)).Nodup := by
  have sites := @Site.names_nodup table _ distinct
  have name {s : Site} {v : Verdict} (found : s.verdict? source = some v) : v.call.name = s.name := by
    obtain ⟨c, mention, rfl⟩ := Site.verdict?_eq_some_iff.1 found
    obtain ⟨slots, _, _, _, _, rfl⟩ := Site.mention_eq_call_iff.1 mention
    rw [Call.check_call]
    rfl
  rw [List.Nodup, List.pairwise_map] at sites
  rw [verdicts_eq read, List.Nodup, List.pairwise_map, List.pairwise_filterMap]
  exact sites.imp fun apart v first w second => by rwa [name first, name second]

/-- The slots of a call cut no call in two, with or without the comments around their arguments. -/
theorem closed_slots {s : Site} {slots : List Slot} {after more : List Token}
    (lists : s.Lists slots after) (closed : Site.Closed (Site.ofTokens table tokens)
      (s.name :: (s.comments ++ s.opening :: (Slot.written slots ++ more)))) :
    ∀ slot ∈ slots, Site.Closed (Site.ofTokens table tokens) slot.tokens ∧
      Site.Closed (Site.ofTokens table tokens) slot.trimmed := by
  intro slot member
  obtain ⟨lead, trail, around, _, comments⟩ := Token.trimComments_split slot.tokens
  obtain ⟨earlier, later, rfl⟩ := List.append_of_mem member
  have part := @Site.Closed.slot _ _ (s.name :: (s.comments ++ s.opening :: Slot.written earlier))
    (Slot.written later ++ more) slot (fun other known => (Site.mem_ofTokens_iff.1 known).2)
    (lists.listed.fills slot member) (lists.listed.stop_kind slot member) (by simpa using closed)
  refine ⟨part, ?_⟩
  rw [around] at part
  exact .drop (.trim comments part)

/-- A token stays if no call is turned there. -/
theorem keep_unturned {t : Token} {more : List Token}
    (unturned : ∀ v ∈ (source.analyze .standard).verdicts, v.call.name = t → v.safeEdits? = none)
    (turnable : Turnable bound (source.analyze .standard).verdicts more) :
    Turnable bound (source.analyze .standard).verdicts (t :: more) := by
  refine .keep ?_ ?_ turnable
  · refine List.flatMap_eq_nil_iff.2 fun v member => ?_
    obtain ⟨listed, name⟩ := List.mem_filter.1 member
    rw [unturned v listed (by simpa using name)]
    rfl
  · intro v member name f eligible
    obtain ⟨c, rfl⟩ := verdict_eq_check member
    have isTurned := Call.safeEdits?_isSome_iff.2 ⟨f, eligible⟩
    rw [unturned _ member name] at isTurned
    cases isTurned

/-- Every part of a file that cuts no call in two can be turned. -/
theorem turnable (read : Token.tokenize source.name source.content = .ok tokens)
    (distinct : tokens.Nodup) {part : List Token}
    (closed : Site.Closed (Site.ofTokens .standard tokens) part) :
    Turnable bound (source.analyze .standard).verdicts part := by
  induction length : part.length using Nat.strong_induction_on generalizing part with
  | _ n ih =>
  subst length
  cases part with
  | nil => exact .nil
  | cons t rest =>
      by_cases turned : ∃ v ∈ (source.analyze .standard).verdicts,
        v.call.name = t ∧ ∃ edits, v.safeEdits? = some edits
      · obtain ⟨v, member, rfl, edits, turned⟩ := turned
        obtain ⟨s, listed, slots, after, lists, proper, rfl, name⟩ := exists_site read member
        obtain ⟨whole, tracked⟩ := Site.mem_ofTokens_iff.1 listed
        rw [name] at closed ih ⊢
        obtain ⟨more, rfl⟩ := closed s listed slots after lists [] rest rfl
        have behind := ih more.length (by simp; omega)
          (Site.Closed.drop (show Site.Closed _ (s.written slots ++ more) by
            simpa [Site.written] using closed)) rfl
        have inside : ∀ slot ∈ slots,
            Turnable bound (source.analyze .standard).verdicts slot.tokens ∧
              Turnable bound (source.analyze .standard).verdicts slot.trimmed := by
          intro slot member
          obtain ⟨part, bare⟩ := closed_slots lists closed slot member
          have shorter := slot.trimmed_sublist.length_le
          have listed := Slot.length_le_written member
          exact ⟨ih slot.tokens.length (by simp; omega) part rfl,
            ih slot.trimmed.length (by simp; omega) bare rfl⟩
        obtain ⟨p, sound, spelled⟩ := Site.exists_plan read whole tracked lists proper member
          (names_nodup read distinct) turned inside
        have turnable := sound.turnable (names_ident read) behind
        rw [spelled, Site.written] at turnable
        simpa using turnable
      · refine keep_unturned (fun v member name => ?_) (ih rest.length (by simp)
          (Site.Closed.drop (show Site.Closed _ ([t] ++ rest) from closed)) rfl)
        refine Option.eq_none_iff_forall_ne_some.2 fun edits found => turned ?_
        exact ⟨v, member, name, edits, found⟩

theorem safeEdits_perm {lexical : List Token} {eof : Token}
    (read : Token.tokenize source.name source.content = .ok (lexical ++ [eof]))
    (ends : eof.kind = .eof) (distinct : lexical.Nodup) :
    (source.analyze table).safeEdits.Perm
      (lexical.flatMap (editsAt (source.analyze table).verdicts)) := by
  have inside : ∀ v ∈ (source.analyze table).verdicts, v.call.name ∈ lexical := by
    intro v member
    have ident := names_ident read v member
    obtain ⟨s, listed, _, _, _, _, _, name⟩ := exists_site read member
    have token : v.call.name ∈ lexical ++ [eof] := by
      rw [name, ← (Site.mem_ofTokens_iff.1 listed).1]
      simp [Site.tokens]
    rcases List.mem_append.1 token with token | last
    · exact token
    · rw [List.mem_singleton.1 last, ends] at ident
      cases ident
  have perm := perm_flatMap_filter (fun v : Verdict => v.call.name) distinct _ inside
  have edits := perm.flatMap_right fun v => v.safeEdits?.getD []
  rw [List.flatMap_assoc] at edits
  exact edits

/-- The tokens of the revised text are, comments apart, those of the file with every eligible call
turned. -/
theorem optimize_turned (bound : Nat)
    (read : Token.tokenize source.name source.content = .ok tokens) :
    ∃ lexical eof revised others tokens', tokens = lexical ++ [eof] ∧ eof.kind = .eof ∧
      (source.analyze .standard).optimize = .ok revised ∧
      Token.tokenize source.name revised = .ok others ∧
      Turned bound (source.analyze .standard).verdicts (Token.code lexical) tokens' ∧
      (Token.code others).map Token.word = tokens'.map Token.word ++ [eof.word] := by
  obtain ⟨gap, lexical, eof, rfl, ends, empty, text, laid, blank⟩ := Token.laid_of_tokenize read
  have distinct := Token.nodup_of_tokenize read
  have closed : Site.Closed (Site.ofTokens .standard (lexical ++ [eof])) lexical :=
    Site.Closed.of_file ends laid.ordered.nodup
  obtain ⟨edits, after, words, tokens', turns⟩ := @turnable bound _ _ read distinct _ closed _ _ _ (gap eof) laid
    (fun last _ => .refl last.kind (gap eof))
  obtain ⟨others, cut, sameWords⟩ := turns.rewrites.scan.tokenize source.name blank
  have old : source.content = textOf gap lexical ++ gap eof := by
    rw [text, Token.textOf_append, Token.textOf_cons, empty]
    simp
  have spliced := turns.rewrites.splices.append (.keep_all _ (gap eof))
  rw [List.append_nil, ← old] at spliced
  obtain ⟨apart, forward⟩ := safeEdits_apart source .standard
  have starts : (source.analyze .standard).safeEdits.Pairwise
      fun first second => first.start ≠ second.start :=
    apart.imp_of_mem fun first second apart => apart.start_ne (forward _ first) (forward _ second)
  have same : (source.analyze .standard).safeEdits.Perm edits :=
    (safeEdits_perm read ends laid.ordered.nodup).trans turns.edits.symm
  have word : eof.word = (.eof, []) := by rw [Token.word, ends, empty]
  refine ⟨lexical, eof, _, others, tokens', rfl, ends, ?_, cut, turns.turned, ?_⟩
  · rw [optimize, analyze_source]
    exact Edit.applyAll_eq_ok spliced same spliced.sorted.2 starts
  · rw [Token.code_words, sameWords, Word.code_append, turns.words, word]
    rfl

/-- The end of the file stays where it is. -/
theorem optimize_turns (bound : Nat) (read : Token.tokenize source.name source.content = .ok tokens) :
    ∃ revised others tokens', (source.analyze .standard).optimize = .ok revised ∧
      Token.tokenize source.name revised = .ok others ∧
      Turned bound (source.analyze .standard).verdicts (Token.code tokens) tokens' ∧
      (Token.code others).map Token.word = tokens'.map Token.word := by
  obtain ⟨lexical, eof, revised, others, tokens', rfl, ends, made, cut, turned, words⟩ :=
    optimize_turned bound read
  have last : Turned bound (source.analyze .standard).verdicts [eof] [eof] := by
    refine .keep (fun v member name => ?_) .nil
    have ident := names_ident read v member
    rw [name, ends] at ident
    cases ident
  refine ⟨revised, others, tokens' ++ [eof], made, cut, ?_, ?_⟩
  · rw [Token.code_append, Token.code_cons (by simp [Token.isComment, ends])]
    exact turned.append last
  · rw [words, List.map_append, List.map_singleton]

/-- Turning calls into safe ones yields a file of which the words, comments apart, are those of the
first file with every eligible call in its safe form. -/
theorem optimize_safeForm (read : Token.tokenize source.name source.content = .ok tokens) :
    ∃ revised others, (source.analyze .standard).optimize = .ok revised ∧
      Token.tokenize source.name revised = .ok others ∧
      SafeForm (source.analyze .standard).verdicts (Token.code tokens)
        ((Token.code others).map Token.word) := by
  obtain ⟨revised, others, tokens', made, cut, turned, words⟩ := optimize_turns 0 read
  refine ⟨revised, others, made, cut, ?_⟩
  rw [words]
  exact turned.safeForm fun t member =>
    Token.spelled_of_tokenize read t (List.mem_of_mem_filter member)

/-- A call without values as an argument of another one. -/
def innerPrint : List Lexeme :=
  [⟨[], .ident, Text.ofString "printf"⟩, ⟨[], .openParen, Text.ofString "("⟩,
   ⟨[], .string, Text.ofString "\"%d\""⟩, ⟨[], .comma, Text.ofString ","⟩,
   ⟨[.char ' '], .ident, Text.ofString "printf"⟩, ⟨[], .openParen, Text.ofString "("⟩,
   ⟨[], .string, Text.ofString "\"x\""⟩, ⟨[], .closeParen, Text.ofString ")"⟩,
   ⟨[], .closeParen, Text.ofString ")"⟩]

theorem tokenize_innerPrint : Token.tokenize [] (Lexeme.flatten innerPrint) =
    .ok (Token.place [] .first (innerPrint ++ [⟨[], .eof, []⟩])) := by
  refine Lexeme.tokenize_words ?_ []
  repeat' first
    | exact .nil
    | refine .cons (by decide) (by decide) (Head.read_iff_form.1 rfl) ?_

def safeInnerPrint : Text :=
  "safe_printf(2, \x7b \"\", \x7b safe_printf(1, \x7b \"x\" \x7d), fmt_int \x7d, \"\" \x7d)"

theorem optimize_innerPrint :
    (Source.analyze ⟨[], Lexeme.flatten innerPrint⟩ .standard).optimize = .ok safeInnerPrint := by
  unfold Source.analyze
  dsimp only
  rw [tokenize_innerPrint]
  cbv

/-- The outer call is turned, and the inner one in it. -/
theorem optimize_safeForm_innerPrint :
    ∃ tokens others, Token.tokenize [] (Lexeme.flatten innerPrint) = .ok tokens ∧
      (Source.analyze ⟨[], Lexeme.flatten innerPrint⟩ .standard).optimize = .ok safeInnerPrint ∧
      Token.tokenize [] safeInnerPrint = .ok others ∧
      SafeForm (Source.analyze ⟨[], Lexeme.flatten innerPrint⟩ .standard).verdicts
        (Token.code tokens) ((Token.code others).map Token.word) := by
  obtain ⟨revised, others, made, again, form⟩ :=
    @optimize_safeForm ⟨[], Lexeme.flatten innerPrint⟩ _ tokenize_innerPrint
  rw [optimize_innerPrint] at made
  cases made
  exact ⟨_, others, tokenize_innerPrint, optimize_innerPrint, again, form⟩

end Analysis

end FormatLint
