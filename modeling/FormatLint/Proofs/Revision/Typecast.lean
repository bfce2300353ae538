import FormatLint.Analysis
import FormatLint.Proofs.Call.Placement
import FormatLint.Proofs.Revision.CastType
import Mathlib

/-!
What writing out the casts does to a file. `Analysis.typecast_inserts` says that it is nothing but an
insertion of tokens: the revised text is read as the tokens of the file with a cast opened in front
of each argument that gets one and closed behind it.
-/

namespace FormatLint

namespace Verdict

/-- The arguments that get a cast, each with its type: those before the format that have no cast,
and those behind it that have none to a known type and meet a demand with a type. -/
def castArguments (v : Verdict) : List (Argument × Text) :=
  if v.isAborted then []
  else
    (v.call.fixedArguments.zip v.call.printer.fixedTypes).filter (·.1.cast?.isNone) ++
      v.pairs.filterMap fun p =>
        if p.isExplicit then none else p.demand.cType?.map fun cType => (p.argument, cType)

theorem fixedCastEdits_eq (v : Verdict) :
    v.fixedCastEdits = ((v.call.fixedArguments.zip v.call.printer.fixedTypes).filter
      (·.1.cast?.isNone)).flatMap fun cast => cast.1.castEdits cast.2 := by
  unfold fixedCastEdits
  generalize v.call.fixedArguments.zip v.call.printer.fixedTypes = arguments
  induction arguments with
  | nil => rfl
  | cons cast later ih =>
      obtain ⟨argument, cType⟩ := cast
      rw [List.flatMap_cons, ih, List.filter_cons]
      dsimp only
      split <;> rfl

theorem pairCastEdits_eq (v : Verdict) :
    v.pairCastEdits = (v.pairs.filterMap fun p =>
      if p.isExplicit then none
      else p.demand.cType?.map fun cType => (p.argument, cType)).flatMap
        fun cast => cast.1.castEdits cast.2 := by
  unfold pairCastEdits
  generalize v.pairs = pairs
  induction pairs with
  | nil => rfl
  | cons p later ih =>
      rw [List.flatMap_cons, ih, List.filterMap_cons]
      cases p.demand.cType? <;> cases p.isExplicit <;> rfl

theorem castEdits_eq (v : Verdict) :
    v.castEdits = v.castArguments.flatMap fun cast => cast.1.castEdits cast.2 := by
  unfold castEdits castArguments
  split
  · rfl
  · rw [List.flatMap_append, fixedCastEdits_eq, pairCastEdits_eq]

end Verdict

namespace Call

theorem map_fst_zip_sublist {α β : Type} (front : List α) (back : List β) :
    ((front.zip back).map Prod.fst).Sublist front := by
  induction front generalizing back with
  | nil => exact .slnil
  | cons x front ih =>
      cases back with
      | nil => exact List.nil_sublist _
      | cons y back => exact (ih back).cons_cons x

theorem pair_arguments (demands : List Demand) (arguments : List Argument) :
    ((pair demands arguments).map (·.argument)).Sublist arguments := by
  have taken : (pair demands arguments).map (·.argument) =
      (arguments.zip demands).map Prod.fst := by
    simp [pair, Function.comp_def]
  rw [taken]
  exact map_fst_zip_sublist arguments demands

theorem check_pairs (c : Call) (source : Source) :
    ((c.check source).pairs.map (·.argument)).Sublist c.trailingArguments := by
  unfold check
  split
  · exact List.nil_sublist _
  · split
    · exact List.nil_sublist _
    · split
      · exact pair_arguments _ _
      · exact List.nil_sublist _

theorem castArguments_sublist (c : Call) (source : Source) :
    ((c.check source).castArguments.map Prod.fst).Sublist c.arguments := by
  have fixed (l : List Argument) (types : List Text) :
      (((l.zip types).filter (·.1.cast?.isNone)).map Prod.fst).Sublist l :=
    (List.filter_sublist.map Prod.fst).trans (map_fst_zip_sublist l types)
  have paired (pairs : List Pair) :
      ((pairs.filterMap fun p =>
        if p.isExplicit then none
        else p.demand.cType?.map fun cType => (p.argument, cType)).map Prod.fst).Sublist
          (pairs.map (·.argument)) := by
    induction pairs with
    | nil => exact .slnil
    | cons p later ih =>
        rw [List.filterMap_cons]
        cases p.demand.cType? <;> cases p.isExplicit <;> first | exact ih.cons _ | exact ih.cons_cons _
  unfold Verdict.castArguments
  split
  · exact List.nil_sublist _
  · rw [check_call, List.map_append, arguments_eq, List.append_assoc]
    refine (fixed _ _).append ?_
    exact ((paired _).trans (check_pairs c source)).trans (List.sublist_append_right _ _)

/-- Arguments are cast to the types of the printer or to those that are demanded of them. -/
theorem castArguments_types {P : Text → Prop} {c : Call} {source : Source}
    (fixed : ∀ cType ∈ c.printer.fixedTypes, P cType)
    (demands : ∀ (d : Demand) (cType : Text), d.cType? = some cType → P cType) :
    ∀ cast ∈ (c.check source).castArguments, P cast.2 := by
  intro cast member
  unfold Verdict.castArguments at member
  split at member
  · cases member
  · rcases List.mem_append.1 member with member | member
    · rw [check_call] at member
      have typed := (List.of_mem_zip (List.mem_filter.1 member).1).2
      exact fixed cast.2 typed
    · obtain ⟨p, _, made⟩ := List.mem_filterMap.1 member
      split at made
      · cases made
      · obtain ⟨cType, demanded, rfl⟩ := Option.map_eq_some_iff.1 made
        exact demands p.demand cType demanded

end Call

/-- Arguments in tokens that can be cast at once: they stand apart or inside each other. -/
structure Castable (tokens : List Token) (casts : List (Argument × Text)) : Prop where
  inside : ∀ cast ∈ casts, cast.1.tokens <:+: tokens
  nested : casts.Pairwise fun first second => first.1.Nests second.1
  code : ∀ cast ∈ casts, cast.1.last.kind ≠ .comment
  glyphs : ∀ cast ∈ casts, ∀ g ∈ cast.2, CType.isTypeGlyph g = true

/-- The arguments of a file that get a cast. -/
def Analysis.casts (a : Analysis) : List (Argument × Text) :=
  a.verdicts.flatMap Verdict.castArguments

/-- The edits of a file are those of its casts. -/
theorem Analysis.castEdits_eq (a : Analysis) : a.verdicts.flatMap (·.castEdits) =
    a.casts.flatMap fun cast => cast.1.castEdits cast.2 := by
  rw [casts, List.flatMap_assoc]
  exact List.flatMap_congr fun v _ => v.castEdits_eq

/-- What holds of all types of the table and of all that can be demanded holds of those that are
written out. -/
theorem Analysis.casts_types {P : Text → Prop} {source : Source} {tokens : List Token}
    (read : Token.tokenize source.name source.content = .ok tokens)
    (fixed : ∀ entry ∈ PrinterTable.standard, ∀ cType ∈ entry.2.fixedTypes, P cType)
    (demands : ∀ (d : Demand) (cType : Text), d.cType? = some cType → P cType) :
    ∀ cast ∈ (source.analyze .standard).casts, P cast.2 := by
  intro cast member
  obtain ⟨v, verdict, inside⟩ := List.mem_flatMap.1 member
  rw [Analysis.verdicts_eq read] at verdict
  obtain ⟨s, site, verdict⟩ := List.mem_filterMap.1 verdict
  obtain ⟨c, mention, rfl⟩ := Site.verdict?_eq_some_iff.1 verdict
  obtain ⟨_, _, _, _, printer⟩ := Site.lists_of_call mention
  refine Call.castArguments_types ?_ demands cast inside
  rw [printer]
  obtain ⟨front, back, parts, _⟩ :=
    List.lookup_eq_some_iff.1 (Site.mem_ofTokens_iff.1 site).2.listed
  exact fixed (s.name.lexeme, s.printer) (List.mem_reverse.1 (by simp [parts]))

theorem Analysis.casts_sublist (source : Source) (table : PrinterTable) :
    ((source.analyze table).casts.map Prod.fst).Sublist (source.analyze table).arguments := by
  have each : ∀ v ∈ (source.analyze table).verdicts,
      (v.castArguments.map Prod.fst).Sublist v.call.arguments := by
    intro v member
    obtain ⟨c, rfl⟩ := Analysis.verdict_eq_check member
    rw [Call.check_call]
    exact Call.castArguments_sublist c source
  unfold casts arguments
  rw [List.map_flatMap]
  generalize (source.analyze table).verdicts = verdicts at each
  induction verdicts with
  | nil => exact .slnil
  | cons v later ih =>
      rw [List.flatMap_cons, List.flatMap_cons]
      exact (each v List.mem_cons_self).append
        (ih fun other member => each other (List.mem_cons_of_mem v member))

/-- The arguments of a file that get a cast stand apart or inside each other. -/
theorem castable_analyze {source : Source} {lexical : List Token} {eof : Token}
    (read : Token.tokenize source.name source.content = .ok (lexical ++ [eof]))
    (ends : eof.kind = .eof) (ordered : Token.Ordered lexical) :
    Castable lexical (source.analyze .standard).casts := by
  have sublist := Analysis.casts_sublist source .standard
  have listed : ∀ cast ∈ (source.analyze .standard).casts,
      cast.1 ∈ (source.analyze .standard).arguments :=
    fun cast member => sublist.subset (List.mem_map_of_mem member)
  refine ⟨?_, ?_, ?_, ?_⟩
  · exact fun cast member => Analysis.arguments_contiguous read ends cast.1 (listed cast member)
  · exact List.pairwise_map.1 ((Analysis.arguments_nest read ends ordered).sublist sublist)
  · exact fun cast member => (Analysis.arguments_trimmed read cast.1 (listed cast member)).2
  · exact Analysis.casts_types read (by decide) fun d cType => CType.demand_glyphs

/-- Each element of a list belongs to one of the keys. -/
theorem perm_flatMap_filter {α β : Type} [DecidableEq β] (key : α → β) {keys : List β}
    (distinct : keys.Nodup) (elements : List α) (listed : ∀ x ∈ elements, key x ∈ keys) :
    elements.Perm (keys.flatMap fun k => elements.filter (key · = k)) := by
  induction keys generalizing elements with
  | nil =>
      cases elements with
      | nil => exact .nil
      | cons x elements => cases listed x List.mem_cons_self
  | cons k keys ih =>
      obtain ⟨fresh, distinct⟩ := List.nodup_cons.1 distinct
      have rest := ih distinct (elements.filter (key · ≠ k)) (by
        intro x member
        obtain ⟨inside, other⟩ := List.mem_filter.1 member
        rcases List.mem_cons.1 (listed x inside) with same | later
        · simp [same] at other
        · exact later)
      have same : (keys.flatMap fun k' => (elements.filter (key · ≠ k)).filter (key · = k')) =
          keys.flatMap fun k' => elements.filter (key · = k') := by
        refine List.flatMap_congr fun k' member => ?_
        rw [List.filter_filter]
        refine List.filter_congr fun x _ => ?_
        have differ : k' ≠ k := fun equal => fresh (equal ▸ member)
        by_cases here : key x = k' <;> simp [here, differ]
      rw [same] at rest
      rw [List.flatMap_cons]
      have parts := List.filter_append_perm (fun x => decide (key x = k)) elements
      refine parts.symm.trans (List.Perm.append_left _ ?_)
      simpa using rest

/-- No two edits of arguments that nest start at the same place. -/
theorem castEdits_apart {tokens : List Token} {casts : List (Argument × Text)}
    (inside : ∀ cast ∈ casts, cast.1.tokens <:+: tokens)
    (nested : casts.Pairwise fun first second => first.1.Nests second.1)
    (ordered : Token.Ordered tokens) :
    (casts.flatMap fun cast => cast.1.castEdits cast.2).Pairwise
      fun first second => first.start ≠ second.start := by
  have positive : ∀ cast ∈ casts, cast.1.span.start.offset < cast.1.span.stop.offset := by
    intro cast member
    have inner := ordered.sublist (inside cast member).sublist
    have covers := Argument.span_covers inner cast.1.first cast.1.first_mem
    have first := inner.nonempty cast.1.first cast.1.first_mem
    omega
  have places (cast : Argument × Text) : ∀ e ∈ cast.1.castEdits cast.2,
      e.start = cast.1.span.start.offset ∨ e.start = cast.1.span.stop.offset := by
    intro e member
    simp only [Argument.castEdits, List.mem_cons, List.not_mem_nil, or_false] at member
    rcases member with rfl | rfl
    · exact .inl rfl
    · exact .inr rfl
  refine List.pairwise_flatMap.2 ⟨?_, ?_⟩
  · intro cast member
    refine List.pairwise_pair.2 ?_
    exact Nat.ne_of_lt (positive cast member)
  · refine nested.imp_of_mem ?_
    intro first second front back nests d opens e closes
    have outer := positive first front
    have inner := positive second back
    simp only [Argument.Nests, Argument.Precedes, Argument.Encloses] at nests
    rcases places first d opens with start | start <;>
      rcases places second e closes with stop | stop <;> omega

namespace Castable

/-- The casts that are opened in front of a token. -/
def openings (casts : List (Argument × Text)) (t : Token) : List Insertion :=
  (casts.filter (·.1.first = t)).map fun cast => CType.opening cast.2

/-- The casts that are closed behind a token. -/
def closings (casts : List (Argument × Text)) (t : Token) : List Insertion :=
  (casts.filter (·.1.last = t)).map fun _ => CType.closing

variable {tokens : List Token} {casts : List (Argument × Text)}

theorem edits_perm (castable : Castable tokens casts) (distinct : tokens.Nodup) :
    (casts.flatMap fun cast => cast.1.castEdits cast.2).Perm
      (Insertion.revisedEdits (openings casts) (closings casts) tokens) := by
  let opened (cast : Argument × Text) : Edit :=
    .insertion cast.1.span.start.offset (CType.opening cast.2).text
  let closed (cast : Argument × Text) : Edit :=
    .insertion cast.1.span.stop.offset CType.closing.text
  have front (t : Token) : Insertion.editsAt t.span.start.offset (openings casts t) =
      (casts.filter (·.1.first = t)).map opened := by
    rw [openings, Insertion.editsAt, List.map_map]
    refine List.map_congr_left fun cast member => ?_
    have here : cast.1.first = t := by simpa using (List.mem_filter.1 member).2
    rw [← here]
    rfl
  have back (t : Token) : Insertion.editsAt t.span.stop.offset (closings casts t) =
      (casts.filter (·.1.last = t)).map closed := by
    rw [closings, Insertion.editsAt, List.map_map]
    refine List.map_congr_left fun cast member => ?_
    have here : cast.1.last = t := by simpa using (List.mem_filter.1 member).2
    rw [← here]
    rfl
  have firsts := (perm_flatMap_filter (fun cast : Argument × Text => cast.1.first) distinct
    casts fun cast member => (castable.inside cast member).subset cast.1.first_mem).map opened
  have lasts := (perm_flatMap_filter (fun cast : Argument × Text => cast.1.last) distinct
    casts fun cast member => (castable.inside cast member).subset cast.1.last_mem).map closed
  have each : (casts.flatMap fun cast => cast.1.castEdits cast.2) =
      casts.flatMap fun cast => [opened cast] ++ [closed cast] := rfl
  rw [each, Insertion.revisedEdits]
  simp only [front, back]
  refine (List.flatMap_append_perm _ _ _).symm.trans
    (.trans ?_ (List.flatMap_append_perm _ _ _))
  rw [List.map_flatMap] at firsts lasts
  rw [← List.map_eq_flatMap, ← List.map_eq_flatMap]
  exact firsts.append lasts

theorem edits_apart (castable : Castable tokens casts) (ordered : Token.Ordered tokens) :
    (casts.flatMap fun cast => cast.1.castEdits cast.2).Pairwise
      fun first second => first.start ≠ second.start :=
  castEdits_apart castable.inside castable.nested ordered

end Castable

/-- Comments and literals, which a revision may not touch. -/
def Word.isLiteral (word : Word) : Bool := word.1 ∈ [.comment, .string, .char]

/-- The revised text is the source with casts inserted around arguments: so it is read, and without
the insertions it is the source. -/
structure Recast (source : Source) (tokens : List Token) (casts : List (Argument × Text))
    (revised : Text) (others : List Token) : Prop where
  distinct : tokens.Nodup
  castable : Castable tokens casts
  words : others.map Token.word =
    Insertion.revisedWords (Castable.openings casts) (Castable.closings casts) tokens
  texts : ∃ gap, source.content = Token.textOf gap tokens ∧
    revised = Insertion.revisedText gap (Castable.openings casts) (Castable.closings casts) tokens
  literals : (others.map Token.word).filter Word.isLiteral =
    (tokens.map Token.word).filter Word.isLiteral

namespace Castable

variable {tokens : List Token} {casts : List (Argument × Text)}

theorem sound_openings (castable : Castable tokens casts) (t : Token) :
    ∀ i ∈ openings casts t, i.Sound := by
  intro i member
  obtain ⟨cast, found, rfl⟩ := List.mem_map.1 member
  exact CType.sound_opening (castable.glyphs cast (List.mem_filter.1 found).1)

theorem sound_closings (casts : List (Argument × Text)) (t : Token) :
    ∀ i ∈ closings casts t, i.Sound := by
  intro i member
  obtain ⟨cast, _, rfl⟩ := List.mem_map.1 member
  exact CType.sound_closing

theorem closings_code (castable : Castable tokens casts) {t : Token}
    (nonempty : closings casts t ≠ []) : t.kind ≠ .comment := by
  obtain ⟨i, member⟩ := List.exists_mem_of_ne_nil _ nonempty
  obtain ⟨cast, found, _⟩ := List.mem_map.1 member
  obtain ⟨inside, last⟩ := List.mem_filter.1 found
  have code := castable.code cast inside
  rwa [of_decide_eq_true last] at code

/-- No cast opens or closes at the end of the file. -/
theorem ends_eof (castable : Castable tokens casts) {gap : Token → Text} {o : Nat} {rest : Text}
    (laid : Token.Laid gap o tokens rest) {eof : Token} (ends : eof.kind = .eof) :
    openings casts eof = [] ∧ closings casts eof = [] := by
  have other : ∀ t ∈ tokens, t ≠ eof := by
    rintro t member rfl
    exact laid.kind_ne_eof t member ends
  constructor
  · rw [openings, List.map_eq_nil_iff, List.filter_eq_nil_iff]
    exact fun cast member => by
      simpa using other _ ((castable.inside cast member).subset cast.1.first_mem)
  · rw [closings, List.map_eq_nil_iff, List.filter_eq_nil_iff]
    exact fun cast member => by
      simpa using other _ ((castable.inside cast member).subset cast.1.last_mem)

theorem words_literals (castable : Castable tokens casts) (others : List Token) :
    (Insertion.revisedWords (openings casts) (closings casts) others).filter Word.isLiteral =
      (others.map Token.word).filter Word.isLiteral := by
  have front (t : Token) : (Insertion.wordsOf (openings casts t)).filter Word.isLiteral = [] := by
    refine List.filter_eq_nil_iff.2 fun word member => ?_
    obtain ⟨i, found, inside⟩ := List.mem_flatMap.1 member
    obtain ⟨cast, listed, rfl⟩ := List.mem_map.1 found
    have glyphs := castable.glyphs cast (List.mem_filter.1 listed).1
    simp only [CType.opening, List.mem_append, List.mem_cons, List.not_mem_nil, or_false] at inside
    rcases inside with (rfl | inside) | rfl | rfl
    · decide
    · have kind := CType.words_kinds glyphs word inside
      simp only [List.mem_cons, List.not_mem_nil, or_false] at kind
      rcases kind with kind | kind <;> simp [Word.isLiteral, kind]
    · decide
    · decide
  have back (t : Token) : (Insertion.wordsOf (closings casts t)).filter Word.isLiteral = [] := by
    refine List.filter_eq_nil_iff.2 fun word member => ?_
    obtain ⟨i, found, inside⟩ := List.mem_flatMap.1 member
    obtain ⟨_, _, rfl⟩ := List.mem_map.1 found
    rw [List.mem_singleton.1 inside]
    decide
  induction others with
  | nil => rfl
  | cons t later ih =>
      rw [Insertion.revisedWords] at ih
      rw [Insertion.revisedWords, List.flatMap_cons, List.filter_append, List.filter_append, ih,
        front, List.map_cons, List.filter_cons, List.filter_cons, back]
      split <;> rfl

end Castable

namespace Analysis

/-- How the text with all casts is read: as the words of the file with those of casts around the
arguments that get one. -/
theorem typecast_reads {source : Source} {tokens : List Token}
    (read : Token.tokenize source.name source.content = .ok tokens) :
    ∃ revised others, (source.analyze .standard).typecast = .ok revised ∧
      Token.tokenize source.name revised = .ok others ∧ tokens.Nodup ∧
      Castable tokens (source.analyze .standard).casts ∧
      others.map Token.word = Insertion.revisedWords
        (Castable.openings (source.analyze .standard).casts)
        (Castable.closings (source.analyze .standard).casts) tokens ∧
      ∃ gap, source.content = Token.textOf gap tokens ∧ revised = Insertion.revisedText gap
        (Castable.openings (source.analyze .standard).casts)
        (Castable.closings (source.analyze .standard).casts) tokens := by
  obtain ⟨gap, lexical, eof, rfl, ends, empty, text, laid, blank⟩ := Token.laid_of_tokenize read
  have ordered := laid.ordered
  have castable := castable_analyze read ends ordered
  have edits := (source.analyze .standard).castEdits_eq
  generalize (source.analyze .standard).casts = casts at castable edits
  have revises := Insertion.revises laid castable.sound_openings (Castable.sound_closings casts)
    fun t _ nonempty => castable.closings_code nonempty
  obtain ⟨front, back⟩ := castable.ends_eof laid ends
  obtain ⟨others, cut, words⟩ := revises.scan.tokenize source.name blank
  have spliced := revises.splices.append (.keep_all _ (gap eof))
  rw [List.append_nil] at spliced
  have old : source.content = Token.textOf gap lexical ++ gap eof := by
    rw [text, Token.textOf_append, Token.textOf_cons, empty]
    simp
  have new : Insertion.revisedText gap (Castable.openings casts) (Castable.closings casts)
      (lexical ++ [eof]) = Insertion.revisedText gap (Castable.openings casts)
        (Castable.closings casts) lexical ++ gap eof := by
    simp [Insertion.revisedText, front, back, empty, Insertion.textOf]
  have reread : others.map Token.word = Insertion.revisedWords (Castable.openings casts)
      (Castable.closings casts) (lexical ++ [eof]) := by
    rw [words]
    simp [Insertion.revisedWords, front, back, empty, ends, Insertion.wordsOf, Token.word]
  refine ⟨_, others, ?_, cut, ?_, ?_, reread, gap, text, new.symm⟩
  · rw [typecast, edits, analyze_source, old]
    exact Edit.applyAll_eq_ok spliced (castable.edits_perm ordered.nodup)
      (Insertion.revisedEdits_sorted ordered _ _) (castable.edits_apart ordered)
  · exact Token.nodup_of_tokenize read
  · refine ⟨fun cast member => ?_, castable.nested, castable.code, castable.glyphs⟩
    exact (castable.inside cast member).trans ⟨[], [eof], rfl⟩

/-- Writing out the casts inserts the words of casts around the arguments that get one, and changes
nothing else. -/
theorem typecast_inserts {source : Source} {tokens : List Token}
    (read : Token.tokenize source.name source.content = .ok tokens) :
    ∃ revised others, (source.analyze .standard).typecast = .ok revised ∧
      Token.tokenize source.name revised = .ok others ∧
      Recast source tokens (source.analyze .standard).casts revised others := by
  obtain ⟨revised, others, made, cut, distinct, castable, words, texts⟩ := typecast_reads read
  refine ⟨revised, others, made, cut, distinct, castable, words, texts, ?_⟩
  rw [words]
  exact castable.words_literals _

/-- A call inside an argument of another one. -/
def nestedCalls : List Lexeme :=
  [⟨[], .ident, Text.ofString "printf"⟩, ⟨[], .openParen, Text.ofString "("⟩,
   ⟨[], .string, Text.ofString "\"%d\""⟩, ⟨[], .comma, Text.ofString ","⟩,
   ⟨[.char ' '], .ident, Text.ofString "printf"⟩, ⟨[], .openParen, Text.ofString "("⟩,
   ⟨[], .string, Text.ofString "\"%s\""⟩, ⟨[], .comma, Text.ofString ","⟩,
   ⟨[.char ' '], .ident, Text.ofString "x"⟩, ⟨[], .closeParen, Text.ofString ")"⟩,
   ⟨[], .closeParen, Text.ofString ")"⟩]

theorem tokenize_nestedCalls : Token.tokenize [] (Lexeme.flatten nestedCalls) =
    .ok (Token.place [] .first (nestedCalls ++ [⟨[], .eof, []⟩])) := by
  have chain : Lexeme.Chain nestedCalls [] := by
    repeat' first
      | exact .nil
      | refine .cons (by decide) (by decide) (Head.read_iff_form.1 rfl) ?_
  exact Lexeme.tokenize_words chain []

theorem typecast_nestedCalls :
    (Source.analyze ⟨[], Lexeme.flatten nestedCalls⟩ .standard).typecast =
      .ok "printf(\"%d\", (int) (printf(\"%s\", (char*) (x))))" := by
  unfold Source.analyze
  dsimp only
  rw [tokenize_nestedCalls]
  cbv

/-- Both calls get their cast, the inner one inside the outer one. -/
theorem typecast_inserts_nestedCalls :
    ∃ tokens others, Token.tokenize [] (Lexeme.flatten nestedCalls) = .ok tokens ∧
      (Source.analyze ⟨[], Lexeme.flatten nestedCalls⟩ .standard).typecast =
        .ok "printf(\"%d\", (int) (printf(\"%s\", (char*) (x))))" ∧
      Token.tokenize [] "printf(\"%d\", (int) (printf(\"%s\", (char*) (x))))" = .ok others ∧
      Recast ⟨[], Lexeme.flatten nestedCalls⟩ tokens
        (Source.analyze ⟨[], Lexeme.flatten nestedCalls⟩ .standard).casts
        "printf(\"%d\", (int) (printf(\"%s\", (char*) (x))))" others := by
  obtain ⟨revised, others, made, again, recast⟩ :=
    @typecast_inserts ⟨[], Lexeme.flatten nestedCalls⟩ _ tokenize_nestedCalls
  rw [typecast_nestedCalls] at made
  cases made
  exact ⟨_, others, tokenize_nestedCalls, typecast_nestedCalls, again, recast⟩

end Analysis

end FormatLint
