import FormatLint.Proofs.Analysis.Stages
import FormatLint.Proofs.Revision.CastSteps
import FormatLint.Proofs.Token.Spelled

/-!
From the analysis of a file to that of the file with all casts in it. `Analysis.typecast_stages` says
what is found there: whatever holds of a call and the call with its own casts, and is kept when other
calls in its arguments get theirs, holds of all calls.
-/

namespace FormatLint

open Castable (openings closings recastTokens)

/-- The argument with its cast, without the comments in it. -/
def Argument.bareCast (cast : Argument × Text) : Argument × Text := (cast.1.bare, cast.2)

/-- Calls that are cast to the same types get the same casts. -/
theorem Verdict.castTypes_same {places : Places} {v v' : Verdict}
    (same : places.SameVerdicts v v') : v'.castTypes = v.castTypes := by
  have aborted : v'.isAborted = v.isAborted := by
    have format := same.format
    unfold isAborted
    generalize v.format = f at format
    generalize v'.format = f' at format
    cases format <;> rfl
  have fixed : v'.call.fixedArguments.map Argument.fixedCast? =
      v.call.fixedArguments.map Argument.fixedCast? := by
    have each : Argument.fixedCast? = (fun (type : Option (Text × Option Family)) (cType : Text) =>
        if type.isNone then some cType else none) ∘ Argument.castType? := rfl
    rw [each, ← List.map_map, same.fixed, List.map_map]
  have zipped (arguments : List Argument) (types : List Text) :
      List.zipWith Argument.fixedCast? arguments types =
        List.zipWith (fun f cType => f cType) (arguments.map Argument.fixedCast?) types := by
    rw [List.zipWith_map_left]
  have pairs : v'.pairs.map Pair.castType? = v.pairs.map Pair.castType? := by
    refine map_eq_of_forall₂ ?_ same.pairs
    rintro p p' ⟨demand, cast⟩
    rw [Pair.castType?, Pair.castType?, Pair.isExplicit, Pair.isExplicit, Pair.family?_same cast,
      demand.cType?]
  rw [castTypes, castTypes, aborted, pairs, zipped, zipped, fixed, same.printer]

namespace Call

theorem castArguments_bare {c : Call} (trimmed : ∀ a ∈ c.arguments, a.Trimmed) (source : Source) :
    (c.bare.check source).castArguments =
      ((c.check source).castArguments).map Argument.bareCast := by
  rw [castArguments_eq, castArguments_eq,
    Verdict.castTypes_same (check_bare trimmed source source).1, bare, List.zip_map_left,
    List.filterMap_map, List.map_filterMap]
  refine List.filterMap_congr fun cast _ => ?_
  obtain ⟨a, _ | cType⟩ := cast <;> rfl

end Call

namespace Castable

variable {casts : List (Argument × Text)}

/-- Casts open and close at the same tokens without the comments in their arguments. -/
theorem ends_bare (trimmed : ∀ cast ∈ casts, cast.1.Trimmed) (t : Token) :
    openings (casts.map Argument.bareCast) t = openings casts t ∧
      closings (casts.map Argument.bareCast) t = closings casts t := by
  unfold openings closings
  rw [List.filter_map, List.filter_map, List.map_map, List.map_map]
  constructor
  · rw [List.filter_congr fun cast member => ?_]
    · rfl
    · simp only [Function.comp_apply, Argument.bareCast, (trimmed cast member).bare_first]
  · rw [List.filter_congr fun cast member => ?_]
    · rfl
    · simp only [Function.comp_apply, Argument.bareCast, (trimmed cast member).bare_last]

/-- The words of tokens with casts among them, without the comments, which get no cast. -/
theorem revisedWords_code (trimmed : ∀ cast ∈ casts, cast.1.Trimmed)
    (known : ∀ cast ∈ casts, CType.Plain cast.2) (tokens : List Token) :
    (Insertion.revisedWords (openings casts) (closings casts) tokens).filter (·.1 ≠ .comment) =
      Insertion.revisedWords (openings casts) (closings casts) (Token.code tokens) := by
  have front (t : Token) :
      (Insertion.wordsOf (openings casts t)).filter (·.1 ≠ .comment) =
        Insertion.wordsOf (openings casts t) :=
    List.filter_eq_self.2 fun word member => by simpa using openings_plain known t word member
  have back (t : Token) :
      (Insertion.wordsOf (closings casts t)).filter (·.1 ≠ .comment) =
        Insertion.wordsOf (closings casts t) :=
    List.filter_eq_self.2 fun word member => by simp [closings_word word member]
  induction tokens with
  | nil => rfl
  | cons t later ih =>
      rw [Insertion.revisedWords] at ih
      rw [Insertion.revisedWords, List.flatMap_cons, List.filter_append, ih, List.filter_append,
        front, List.filter_cons, back]
      cases comment : t.isComment with
      | true =>
          have kind := Token.isComment_iff.1 comment
          have free : openings casts t = [] := openings_elsewhere fun cast member same =>
            (trimmed cast member).1 (same ▸ kind)
          have free' : closings casts t = [] := closings_elsewhere fun cast member same =>
            (trimmed cast member).2 (same ▸ kind)
          simp [Token.code_cons_comment comment, Insertion.revisedWords, Token.word, kind, free,
            free', Insertion.wordsOf]
      | false =>
          have kind : t.kind ≠ .comment := by simpa [Token.isComment] using comment
          simp [Token.code_cons comment, Insertion.revisedWords, Token.word, kind]

theorem words_code {o : Nat} {lexical lexical' : List Token} {eof eof' : Token}
    (trimmed : ∀ cast ∈ casts, cast.1.Trimmed) (known : ∀ cast ∈ casts, CType.Plain cast.2)
    (free : openings casts eof = [] ∧ closings casts eof = []) (ends : eof.kind = .eof)
    (empty : eof.lexeme = []) (ends' : eof'.kind = .eof) (empty' : eof'.lexeme = [])
    (words : (lexical' ++ [eof']).map Token.word =
      Insertion.revisedWords (openings casts) (closings casts) (lexical ++ [eof])) :
    (recastTokens o (casts.map Argument.bareCast) (Token.code lexical)).map Token.word =
      (Token.code lexical').map Token.word := by
  have bare := ends_bare trimmed
  have code (tokens : List Token) : (tokens.map Token.word).filter (·.1 ≠ .comment) =
      (Token.code tokens).map Token.word := by
    rw [List.filter_map, Token.code]
    refine congrArg _ (List.filter_congr fun t _ => ?_)
    rw [Bool.eq_iff_iff]
    simp only [Function.comp_apply, Token.word, Token.isComment, Bool.not_eq_true',
      decide_eq_false_iff_not]
    exact decide_eq_true_iff
  have last (e : Token) (kind : e.kind = .eof) : Token.code [e] = [e] := by
    simp [Token.code, Token.isComment, kind]
  have final : [eof'].map Token.word = [eof].flatMap fun t =>
      Insertion.wordsOf (openings casts t) ++ t.word :: Insertion.wordsOf (closings casts t) := by
    simp [free.1, free.2, Insertion.wordsOf, Token.word, ends, ends', empty, empty']
  have whole := congrArg (List.filter (·.1 ≠ .comment)) words
  rw [code, revisedWords_code trimmed known, Token.code_append, Token.code_append, last eof ends,
    last eof' ends', List.map_append, Insertion.revisedWords, List.flatMap_append, final] at whole
  rw [recastTokens_words, funext fun t => (bare t).1, funext fun t => (bare t).2]
  exact (List.append_cancel_right whole).symm

theorem before_recastTokens {o : Nat} {tokens : List Token}
    (within : ∀ t ∈ tokens, t.span.start.offset < o) :
    (recastTokens o casts tokens).filter (·.span.start.offset < o) = tokens := by
  have dropped (words : List Word) :
      (words.map (Token.beyond o)).filter (·.span.start.offset < o) = [] := by
    rw [List.filter_eq_nil_iff]
    intro t member
    obtain ⟨word, _, rfl⟩ := List.mem_map.1 member
    simp [Token.beyond]
  induction tokens with
  | nil => rfl
  | cons t later ih =>
      rw [recastTokens] at ih
      rw [recastTokens, List.flatMap_cons, List.filter_append,
        ih fun u member => within u (List.mem_cons_of_mem t member), List.filter_append, dropped,
        List.filter_cons_of_pos (by simpa using within t List.mem_cons_self), dropped]
      rfl

/-- What is inserted is spelled as its kind demands. -/
theorem spelled_recastTokens {o : Nat} {tokens : List Token}
    (known : ∀ cast ∈ casts, CType.Plain cast.2) (spelled : ∀ t ∈ tokens, t.Spelled) :
    ∀ t ∈ recastTokens o casts tokens, t.Spelled := by
  have bracket : (Token.beyond o (.openParen, Text.ofString "(")).Spelled :=
    ⟨by rintro ⟨⟩, fun _ => rfl, by rintro ⟨⟩, by rintro ⟨⟩⟩
  have close : (Token.beyond o (.closeParen, Text.ofString ")")).Spelled :=
    ⟨by rintro ⟨⟩, by rintro ⟨⟩, fun _ => rfl, by rintro ⟨⟩⟩
  intro t member
  obtain ⟨u, listed, inside⟩ := List.mem_flatMap.1 member
  simp only [List.mem_append, List.mem_cons, List.mem_map] at inside
  rcases inside with ⟨word, opened, rfl⟩ | rfl | ⟨word, closed, rfl⟩
  · obtain ⟨i, found, inside⟩ := List.mem_flatMap.1 opened
    obtain ⟨cast, chosen, rfl⟩ := List.mem_map.1 found
    have plain := known cast (List.mem_filter.1 chosen).1
    simp only [CType.opening, List.mem_append, List.mem_cons, List.not_mem_nil, or_false] at inside
    rcases inside with (rfl | inside) | rfl | rfl
    · exact bracket
    · rcases plain.kinds word inside with kind | rfl
      · obtain ⟨opens, closes⟩ := plain.brackets word inside
        have name : (Token.beyond o word).kind = .ident := kind
        exact ⟨fun _ => ⟨name, opens, closes⟩, by simp [name], by simp [name], by simp [name]⟩
      · exact ⟨by rintro ⟨⟩, by rintro ⟨⟩, by rintro ⟨⟩, by rintro ⟨⟩⟩
    · exact close
    · exact bracket
  · exact spelled t listed
  · rw [closings_word word closed]
    exact close

end Castable

/-- Tokens that are read as the words that were written: the written tokens, which are in order as far
as they stand in front of an offset, and those that are read stand for each other. -/
theorem Token.twins_of_words {o : Nat} {written lexical : List Token}
    (covers : ∀ t ∈ written, t.Sized ∨ (t.kind ≠ .string ∧ t.span.start.offset < t.span.stop.offset))
    (ordered : (written.filter (·.span.start.offset < o)).Pairwise fun first second =>
      first.span.stop.offset ≤ second.span.start.offset)
    {bound : Nat} (read : ∀ t ∈ lexical, t.Solid bound) (ordered' : Token.Ordered lexical)
    (words : written.map Token.word = lexical.map Token.word) :
    List.Forall₂ (Token.Twin (written.zip lexical)) written lexical ∧
      Aligned (Places.before o (written.zip lexical)) := by
  have length : written.length = lexical.length := by simpa using congrArg List.length words
  constructor
  · refine List.forall₂_iff_zip.2 ⟨length, fun {t t'} listed => ?_⟩
    obtain ⟨member, member'⟩ := List.of_mem_zip listed
    have word : t.word = t'.word := by
      have both := List.forall₂_iff_zip.1 (List.forall₂_eq_eq_eq ▸ words :
        List.Forall₂ Eq (written.map Token.word) (lexical.map Token.word))
      refine both.2 ?_
      rw [List.zip_map]
      exact List.mem_map_of_mem (f := Prod.map Token.word Token.word) listed
    obtain ⟨kind, lexeme⟩ : t.kind = t'.kind ∧ t.lexeme = t'.lexeme := Prod.ext_iff.1 word
    have solid' := read t' member'
    refine ⟨listed, kind.symm, lexeme.symm, ?_, solid'.forward, fun string => ?_⟩
    · rcases covers t member with sized | ⟨_, forward⟩
      · have forward := solid'.forward
        have sized' := solid'.sized
        unfold Token.Sized at sized sized'
        rw [lexeme] at sized
        omega
      · exact forward
    · rcases covers t member with sized | ⟨other, _⟩
      · exact ⟨sized, solid'.sized⟩
      · exact absurd string other
  · have first : ((Places.before o (written.zip lexical)).map Prod.fst) =
        written.filter (·.span.start.offset < o) := by
      have whole := List.map_fst_zip (Nat.le_of_eq length)
      conv => rhs; rw [← whole, List.filter_map]
      rfl
    have second : ((Places.before o (written.zip lexical)).map Prod.snd).Sublist lexical := by
      have whole := List.map_snd_zip (Nat.le_of_eq length.symm)
      conv => rhs; rw [← whole]
      exact (List.filter_sublist).map Prod.snd
    rw [← first] at ordered
    have starts' := ordered'.pairwise.sublist second
    exact (List.pairwise_map.1 ordered).and (List.pairwise_map.1 starts')

namespace Slot

theorem nested_written {d : Nat} {slots : List Slot} (listed : Listed d slots)
    (nested : ∀ s ∈ slots, Token.Nested (Token.code s.tokens))
    (commas : ∀ s ∈ slots, s.stop.kind = .comma → s.stop.lexeme = Text.ofString ",")
    {inner : List Token} {closing : Token} (list : written slots = inner ++ [closing]) :
    Token.Nested (Token.code inner) := by
  induction listed generalizing inner with
  | @last d s _ _ =>
      have same : s.tokens ++ [s.stop] = inner ++ [closing] := by rw [← list]; simp [written]
      rw [← (List.append_inj' same rfl).1]
      exact nested s List.mem_cons_self
  | @next d s later _ comma listed ih =>
      obtain ⟨front, last, whole, _⟩ := listed.written_eq
      rw [written_cons, whole, ← List.cons_append, ← List.append_assoc] at list
      obtain ⟨rfl, here⟩ := List.append_inj' list rfl
      obtain rfl := List.singleton_inj.1 here
      have solid : s.stop.isComment = false := by simp [Token.isComment, comma]
      have lexeme := commas s List.mem_cons_self comma
      rw [Token.code_append, Token.code_cons solid]
      refine (nested s List.mem_cons_self).append (.plain ?_ ?_ ?_)
      · rw [lexeme]
        decide
      · rw [lexeme]
        decide
      · exact ih (fun t member => nested t (List.mem_cons_of_mem s member))
          (fun t member => commas t (List.mem_cons_of_mem s member)) whole

/-- The slots of a list are nested like the arguments that they make. -/
theorem nested_inner {d : Nat} {slots : List Slot} (listed : Listed d slots) (proper : Proper slots)
    (spelled : ∀ t ∈ written slots, t.Spelled)
    (nested : ∀ a ∈ arguments slots, Token.Nested a.code) {inner : List Token} {closing : Token}
    (list : written slots = inner ++ [closing]) : Token.Nested (Token.code inner) := by
  refine nested_written listed (fun s member => ?_)
    (fun s member comma => (spelled s.stop (stop_mem_written member)).comma comma) list
  rcases code_argument proper member with bare | ⟨a, inside, same⟩
  · rw [bare]
    exact .nil
  · rw [same]
    exact nested a inside

end Slot

namespace Argument

variable {o : Nat}

theorem nested_castTo {a : Argument} {cType : Text} (plain : CType.Plain cType)
    (nested : Token.Nested a.code) : Token.Nested (a.castTo o cType).code := by
  have words : Token.Nested ((CType.words cType).map (Token.beyond o)) := by
    refine .of_all fun t member => ?_
    obtain ⟨word, inside, rfl⟩ := List.mem_map.1 member
    exact plain.brackets word inside
  have pair : Cast.closer? (Text.ofString "(") = some (Text.ofString ")") := by decide
  rw [code_castTo plain]
  exact .group pair words (.group pair nested .nil)

theorem nested_recastAll {arguments : List Argument} {types : List (Option Text)}
    (known : ∀ cType, some cType ∈ types → CType.Plain cType)
    (nested : ∀ a ∈ arguments, Token.Nested a.code) :
    ∀ a ∈ recastAll o arguments types, Token.Nested a.code := by
  induction arguments generalizing types with
  | nil => cases types <;> exact fun a member => absurd member List.not_mem_nil
  | cons a later ih =>
      cases types with
      | nil => exact nested
      | cons cType types =>
          have rest := ih (fun other member => known other (List.mem_cons_of_mem _ member))
            fun b member => nested b (List.mem_cons_of_mem a member)
          have inner := nested a List.mem_cons_self
          intro b member
          rcases List.mem_cons.1 member with rfl | member
          · cases cType with
            | none => exact inner
            | some cType => exact nested_castTo (known cType List.mem_cons_self) inner
          · exact rest b member

end Argument

namespace Mention

/-- The relation holds of each call and the call with its own casts, and when another call in its
arguments gets casts. -/
structure Recasts (source : Source) (o : Nat) (mentions : List Mention) (R : Call → Call → Prop) :
    Prop where
  own : ∀ c, .call c ∈ mentions → R c.bare (c.bare.recast o source)
  swap : ∀ (p : Patch) (spelled : p.Spelled),
    ((∀ c, .call c ∈ mentions → ∀ a ∈ c.arguments, Token.Nested a.code) → (p.swap spelled).Even) →
      ∀ c b b', R c b → Call.Patched p b b' → R c b'

variable {source : Source} {o : Nat} {R : Call → Call → Prop} {lexical : List Token}

/-- The casts of a file without its comments. -/
theorem castArguments_code (source : Source) (lexical : List Token) :
    (calls (scan .standard none (Token.code lexical))).flatMap
        (fun c => (c.check source).castArguments) =
      ((calls (scan .standard none lexical)).flatMap
        fun c => (c.check source).castArguments).map Argument.bareCast := by
  rw [scan_code, calls_bare, List.flatMap_map, List.map_flatMap]
  refine List.flatMap_congr fun c member => ?_
  obtain ⟨m, found, call⟩ := List.mem_filterMap.1 member
  exact Call.castArguments_bare (trimmed_of_scan (call?_eq_some_iff.1 call ▸ found)) source

theorem castArguments_fit {c : Call} (found : .call c ∈ scan .standard none lexical) :
    ∀ cast ∈ (c.check source).castArguments, cast.1.Trimmed ∧ CType.Plain cast.2 := by
  intro cast member
  obtain ⟨s, listed, mention⟩ := site_of_scan found
  have sublist := (Call.castArguments_sublist c source).subset (List.mem_map_of_mem member)
  refine ⟨trimmed_of_scan found cast.1 sublist, ?_⟩
  refine Site.casts_plain source (Site.mem_ofTokens_iff.1 listed).2 cast ?_
  rw [Site.casts, mention]
  exact member

theorem nested_of_scan
    (nested : ∀ c, .call c ∈ scan .standard none lexical → ∀ a ∈ c.arguments, Token.Nested a.code)
    {c : Call} (found : .call c ∈ scan .standard none (Token.code lexical)) :
    ∀ a ∈ c.arguments, Token.Nested a.code := by
  rw [scan_code] at found
  obtain ⟨m, member, bare⟩ := List.mem_map.1 found
  cases m with
  | call c' =>
      rw [← Mention.call.inj bare]
      intro a inside
      obtain ⟨a', inside', rfl⟩ := List.mem_map.1 inside
      rw [(trimmed_of_scan member a' inside').bare_code]
      exact nested c' member a' inside'
  | _ => cases bare

/-- The calls that are replaced by one patch leave the brackets of their arguments as they are. -/
theorem Recasts.swap_patch (recasts : Recasts source o (scan .standard none lexical) R)
    (spelled : ∀ t ∈ lexical, t.Spelled) {s : Site}
    (listed : s ∈ Site.ofTokens .standard (Token.code lexical)) {slots slots' : List Slot} {p : Patch}
    (lists : ∃ after, s.Lists slots after) (proper : Slot.Proper slots)
    (patch : s.CastPatch source o slots slots' p) {c b b' : Call} (done : R c b)
    (patched : Call.Patched p b b') : R c b' := by
  obtain ⟨after, lists⟩ := lists
  obtain ⟨whole, tracked⟩ := Site.mem_ofTokens_iff.1 listed
  have inFile : ∀ t ∈ s.tokens, t.Spelled := fun t member =>
    spelled t (List.mem_filter.1 (whole ▸ member)).1
  have inList : ∀ t ∈ Slot.written slots, t.Spelled := fun t member => inFile t (by
    rw [lists.tokens_eq]
    simp [Site.written, member])
  have known := Call.castTypes_plain (s.call slots) source tracked.listed
  have casts : ∀ cast ∈ ((s.call slots).check source).castArguments, CType.Plain cast.2 := by
    rw [← Site.casts_call lists proper]
    exact Site.casts_plain source tracked
  have name : Cast.IsName s.name := (inFile s.name (by simp [Site.tokens])).name tracked.ident
  have spelling : p.Spelled := by
    refine ⟨patch.name ▸ name, patch.name' ▸ name, ?_⟩
    rw [patch.opening]
    exact (inFile s.opening (by simp [Site.tokens])).opening tracked.opens
  refine recasts.swap p spelling (fun nested => ?_) c b b' done patched
  have old := patch.between.old
  have new := patch.between.new
  rw [Patch.old, List.cons_inj_right, List.cons_inj_right] at old
  rw [Patch.new, List.cons_inj_right, List.cons_inj_right] at new
  have arguments := nested_of_scan nested (call_of_scan listed
    (Site.mention_eq_call_iff.2 ⟨slots, after, lists.later, lists.listed, proper, rfl⟩))
  have before : Token.Nested (Token.code p.inner) :=
    Slot.nested_inner lists.listed proper inList arguments old.symm
  have behind : Token.Nested (Token.code p.inner') :=
    Slot.nested_inner patch.between.listed' patch.proper
      (patch.written ▸ Castable.spelled_recastTokens (o := o) casts inList)
      (patch.arguments ▸ Argument.nested_recastAll known arguments) new.symm
  exact Cast.Swap.even_of_nested before behind

/-- What becomes of the mentions of a file without its comments when all casts are written. -/
theorem Recasts.scan (recasts : Recasts source o (scan .standard none lexical) R)
    (spelled : ∀ t ∈ lexical, t.Spelled) (distinct : (Token.code lexical).Nodup)
    (within : ∀ t ∈ Token.code lexical, t.span.start.offset < o) :
    List.Forall₂ (Places.same.Mentions R) ((Mention.scan .standard none lexical).map bare)
      (Mention.scan .standard none (recastTokens o
        (((calls (Mention.scan .standard none lexical)).flatMap
          fun c => (c.check source).castArguments).map Argument.bareCast) (Token.code lexical))) := by
  rw [← castArguments_code, ← scan_code]
  refine scan_recast (fun t member => ?_) distinct within (fun c found => ?_)
    fun s site slots slots' p lists proper patch c b b' =>
      recasts.swap_patch spelled site lists proper patch
  · simpa [Token.isComment] using (List.mem_filter.1 member).2
  · rw [scan_code] at found
    obtain ⟨m, member, bare⟩ := List.mem_map.1 found
    cases m with
    | call c' =>
        rw [← Mention.call.inj bare]
        exact recasts.own c' member
    | _ => cases bare

end Mention

namespace Analysis

theorem casts_eq {source : Source} {tokens : List Token}
    (read : Token.tokenize source.name source.content = .ok tokens) :
    (source.analyze .standard).casts =
      (Mention.calls (Mention.scan .standard none tokens)).flatMap
        fun c => (c.check source).castArguments := by
  rw [casts, analyze_eq source read, List.flatMap_map]
  rfl

/-- What is found in the text with all casts: the mentions of the file in their order, at the places
where they stood but for what was inserted. -/
theorem typecast_stages {source : Source} {tokens : List Token}
    (read : Token.tokenize source.name source.content = .ok tokens) :
    ∃ revised others o pairs, (source.analyze .standard).typecast = .ok revised ∧
      Token.tokenize source.name revised = .ok others ∧ Aligned (Places.before o pairs) ∧
      ∀ R, Mention.Recasts source o (Mention.ofTokens .standard tokens) R →
        List.Forall₂ ((Places.along (Places.before o pairs)).Mentions
            (Staged o pairs source ⟨source.name, revised⟩ R))
          (Mention.ofTokens .standard tokens) (Mention.ofTokens .standard others) := by
  obtain ⟨revised, others, made, cut, _, castable, words, _⟩ := typecast_reads read
  obtain ⟨gap, lexical, eof, rfl, ends, empty, _, laid, _⟩ := Token.laid_of_tokenize read
  obtain ⟨gap', lexical', eof', rfl, ends', empty', _, laid', _⟩ := Token.laid_of_tokenize cut
  have solid := laid.solid
  rw [Nat.zero_add] at solid
  generalize bound : (Token.textOf gap lexical).length = o at solid
  have listed := casts_eq read
  have fit : ∀ cast ∈ (source.analyze .standard).casts, cast.1.Trimmed ∧ CType.Plain cast.2 := by
    rw [listed]
    intro cast member
    obtain ⟨c, called, inside⟩ := List.mem_flatMap.1 member
    obtain ⟨m, found, call⟩ := List.mem_filterMap.1 called
    exact Mention.castArguments_fit (Mention.call?_eq_some_iff.1 call ▸ found) cast inside
  have castables := castable_analyze read ends laid.ordered
  generalize (source.analyze .standard).casts = casts at listed fit castable castables words
  have trimmed : ∀ cast ∈ casts, cast.1.Trimmed := fun cast member => (fit cast member).1
  have known : ∀ cast ∈ casts, CType.Plain cast.2 := fun cast member => (fit cast member).2
  have code : ∀ t ∈ Token.code lexical, t.Solid o :=
    fun t member => solid t (List.mem_filter.1 member).1
  have within : ∀ t ∈ Token.code lexical, t.span.start.offset < o := fun t member => by
    have inside := code t member
    exact Nat.lt_of_lt_of_le inside.forward inside.bound
  have ordered : Token.Ordered (Token.code lexical) := laid.ordered.sublist List.filter_sublist
  have ordered' : Token.Ordered (Token.code lexical') := laid'.ordered.sublist List.filter_sublist
  -- Without its comments, the revised file has the words of the file into which the casts are put token
  -- by token, so both can be matched one token at a time.
  have sameWords := Castable.words_code (o := o) trimmed known (castables.ends_eof laid ends) ends empty
    ends' empty' words
  have covers : ∀ t ∈ Castable.recastTokens o (casts.map Argument.bareCast) (Token.code lexical),
      t.Sized := by
    intro t member
    rcases Castable.mem_recastTokens member with inside | ⟨word, rfl⟩
    · exact (code t inside).sized
    · rfl
  obtain ⟨twins, aligned⟩ := Token.twins_of_words (o := o) (fun t member => .inl (covers t member))
    (by rw [Castable.before_recastTokens within]; exact ordered.pairwise)
    (fun t member => laid'.solid t (List.mem_filter.1 member).1) ordered' sameWords
  refine ⟨revised, _, o, _, made, cut, aligned, fun R recasts => ?_⟩
  have scanned : Mention.scan .standard none (lexical ++ [eof]) =
      Mention.scan .standard none lexical := Mention.scan_eof ends _ _
  have spelled : ∀ t ∈ lexical, t.Spelled := fun t member =>
    Token.spelled_of_tokenize read t (List.mem_append_left _ member)
  unfold Mention.ofTokens at recasts ⊢
  rw [scanned] at recasts listed
  have steps := recasts.scan spelled ordered.nodup within
  rw [← listed, ← scanned] at steps
  exact Mention.stages solid ends ends' (fun _ => id) steps twins

end Analysis

end FormatLint
