import FormatLint.Proofs.Revision.Preserve
import FormatLint.Proofs.Token.Insertion

/-!
Comments and blanks say nothing. `Analysis.same_of_words` says that the analysis finds the same in two
files of which the words are the same, comments apart; so a comment may be put in front of any token,
`Analysis.same_commented`.
-/

namespace FormatLint

/-- The same is known of two calls, wherever they stand. -/
structure Verdict.Same (v v' : Verdict) : Prop where
  printer : v'.call.printer = v.call.printer
  arguments : v'.call.arguments.map (fun a => a.code.map Token.word) =
    v.call.arguments.map fun a => a.code.map Token.word
  format : v'.format.map (fun f => (f.text, f.breaks, f.parts.map fun p => (p.piece, p.start))) =
    v.format.map fun f => (f.text, f.breaks, f.parts.map fun p => (p.piece, p.start))
  casts : v'.call.arguments.map Argument.castType? = v.call.arguments.map Argument.castType?
  pairs : v'.pairs.map (fun p => (p.demand.directive, p.demand.role, p.cast.map Cast.type)) =
    v.pairs.map fun p => (p.demand.directive, p.demand.role, p.cast.map Cast.type)
  diagnostics : v'.diagnostics.map (fun d => (d.problem, d.message)) =
    v.diagnostics.map fun d => (d.problem, d.message)

/-- The same is known of two files, wherever it stands in them. -/
structure Analysis.Same (a a' : Analysis) : Prop where
  fatal : a'.isFatal = a.isFatal
  verdicts : List.Forall₂ Verdict.Same a.verdicts a'.verdicts
  diagnostics : a'.diagnostics.map (fun d => (d.problem, d.message)) =
    a.diagnostics.map fun d => (d.problem, d.message)

variable {pairs : List (Token × Token)}

theorem Token.words_twin {tokens tokens' : List Token}
    (like : List.Forall₂ (Twin pairs) tokens tokens') :
    tokens'.map word = tokens.map word :=
  map_eq_of_forall₂ (fun t t' twin => by rw [word, word, twin.kind, twin.lexeme]) like

theorem Call.bare_arguments {c : Call} (trimmed : ∀ a ∈ c.arguments, a.Trimmed) :
    c.bare.arguments.map (fun a => a.code.map Token.word) =
        c.arguments.map (fun a => a.code.map Token.word) ∧
      c.bare.arguments.map Argument.castType? = c.arguments.map Argument.castType? := by
  simp only [Call.bare, List.map_map]
  constructor
  · refine List.map_congr_left fun a member => ?_
    rw [Function.comp_apply, (trimmed a member).bare_code]
  · refine List.map_congr_left fun a member => ?_
    rw [Function.comp_apply, Argument.castType?, (trimmed a member).bare_cast?]
    rfl

theorem Places.Formats.pieces {places : Places} {f f' : FormatString}
    (like : places.Formats f f') :
    (f'.text, f'.breaks, f'.parts.map fun p => (p.piece, p.start)) =
      (f.text, f.breaks, f.parts.map fun p => (p.piece, p.start)) := by
  have parts := map_eq_of_forall₂ (f := fun p : PlacedPiece => (p.piece, p.start))
    (g := fun p : PlacedPiece => (p.piece, p.start))
    (fun p p' like => by rw [like.1, like.2.1]) like.parts
  rw [like.text, like.breaks, parts]

/-- The same is known of two calls that are read from the same tokens, comments apart. -/
theorem Call.same_of_twin {c c' : Call} (trimmed : ∀ a ∈ c.arguments, a.Trimmed)
    (trimmed' : ∀ a ∈ c'.arguments, a.Trimmed) (twin : Call.Twin pairs c.bare c'.bare)
    (source source' : Source) :
    (Places.along pairs).SameVerdicts (c.check source) (c'.check source') ∧
      (c.check source).Same (c'.check source') := by
  have bare := (check_bare trimmed source source).1
  have bare' := (check_bare trimmed' source' source').2
  have moved := twin.check source source'
  have same : (Places.along pairs).SameVerdicts (c.check source) (c'.check source') :=
    (bare.trans (Places.same_composes _) moved).trans (Places.composes_same _) bare'
  obtain ⟨words, casts⟩ := bare_arguments trimmed
  obtain ⟨words', casts'⟩ := bare_arguments trimmed'
  refine ⟨same, ?_⟩
  constructor
  · exact same.printer
  · rw [check_call, check_call, ← words, ← words']
    exact map_eq_of_forall₂ (fun a a' like => Token.words_twin (Token.code_twin like))
      twin.arguments
  · exact map_eq_of_optionRel (fun f f' like => like.pieces) same.format
  · rw [check_call, check_call, ← casts, ← casts']
    exact map_eq_of_forall₂ (fun a a' like => Argument.Twin.castType? like) twin.arguments
  · exact map_eq_of_forall₂ (fun p p' like => by
      rw [like.1.directive, like.1.role, like.2]) same.pairs
  · exact map_eq_of_forall₂ (fun d d' like => by rw [like.problem, like.message]) same.diagnostics

theorem forall₂_members {α β : Type} {R : α → β → Prop} {first : List α} {second : List β}
    (like : List.Forall₂ R first second) :
    List.Forall₂ (fun a b => a ∈ first ∧ b ∈ second ∧ R a b) first second := by
  refine List.forall₂_iff_zip.2 ⟨like.length_eq, fun {a b} listed => ?_⟩
  obtain ⟨member, member'⟩ := List.of_mem_zip listed
  exact ⟨member, member', (List.forall₂_iff_zip.1 like).2 listed⟩

/-- Files of the same words, comments apart, consist of the same tokens, which stand in the same order
in both. -/
theorem Token.twins_of_code {o o' : Nat} {lexical lexical' : List Token}
    (solid : ∀ t ∈ lexical, t.Solid o) (solid' : ∀ t ∈ lexical', t.Solid o')
    (ordered : Ordered lexical) (ordered' : Ordered lexical')
    (words : (code lexical').map word = (code lexical).map word) :
    List.Forall₂ (Twin ((code lexical).zip (code lexical'))) (code lexical) (code lexical') ∧
      Aligned ((code lexical).zip (code lexical')) := by
  have inside : ∀ t ∈ code lexical, t.Solid o := fun t member => solid t (List.mem_filter.1 member).1
  obtain ⟨twins, aligned⟩ := twins_of_words (o := o) (fun t member => .inl (inside t member).sized)
    (ordered.pairwise.sublist (List.filter_sublist.trans List.filter_sublist))
    (fun t member => solid' t (List.mem_filter.1 member).1)
    (ordered'.sublist List.filter_sublist) words.symm
  have whole : Places.before o ((code lexical).zip (code lexical')) =
      (code lexical).zip (code lexical') := by
    refine List.filter_eq_self.2 fun pair listed => ?_
    have here := inside pair.1 (List.of_mem_zip listed).1
    exact decide_eq_true (Nat.lt_of_lt_of_le here.forward here.bound)
  exact ⟨twins, whole ▸ aligned⟩

/-- The source with an empty comment, between blanks, in front of the token. -/
def Source.commented (s : Source) (t : Token) : Source :=
  { s with content := Token.insertBefore s.content t " /**/ " }

theorem Lexeme.chain_emptyComment (next : Text) :
    Chain [⟨[], .comment, "/**/"⟩] (" " ++ next) :=
  .cons (by simp) (by decide) (Head.read_iff_form.1 rfl) .nil

/-- An empty comment keeps all words of a file. -/
theorem Token.tokenize_commented {source : Source} {tokens : List Token} {t : Token}
    (read : tokenize source.name source.content = .ok tokens) (member : t ∈ tokens)
    (inside : t.kind ≠ .eof) :
    ∃ tokens', tokenize (source.commented t).name (source.commented t).content = .ok tokens' ∧
      (code tokens').map word = (code tokens).map word := by
  obtain ⟨front, back, rfl⟩ := List.append_of_mem member
  have blank : ∀ g ∈ (" " : Text), Lexeme.isGap g = true := by decide
  have cut := tokenize_insert read inside blank (.inl (by decide)) Lexeme.chain_emptyComment
    (by simp) blank
  refine ⟨_, cut, ?_⟩
  have moved (r : Relocation) (later : List Token) :
      (code (later.map (relocate r))).map word = (code later).map word := by
    rw [code, List.filter_map, List.map_map]
    rfl
  rw [code_append, code_append, code_append, List.map_append, List.map_append, List.map_append, moved]
  rfl

namespace Analysis

/-- The analysis finds the same in files of the same words, comments apart. -/
theorem same_of_words {table : PrinterTable} {source source' : Source} {tokens tokens' : List Token}
    (read : Token.tokenize source.name source.content = .ok tokens)
    (read' : Token.tokenize source'.name source'.content = .ok tokens')
    (words : (Token.code tokens').map Token.word = (Token.code tokens).map Token.word) :
    Same (source.analyze table) (source'.analyze table) := by
  obtain ⟨gap, lexical, eof, rfl, ends, empty, _, laid, _⟩ := Token.laid_of_tokenize read
  obtain ⟨gap', lexical', eof', rfl, ends', empty', _, laid', _⟩ := Token.laid_of_tokenize read'
  have within : (Token.code lexical').map Token.word = (Token.code lexical).map Token.word := by
    rw [Token.code_file ends, Token.code_file ends', List.map_append, List.map_append] at words
    exact (List.append_inj' words rfl).1
  obtain ⟨twins, aligned⟩ := Token.twins_of_code laid.solid laid'.solid laid.ordered laid'.ordered
    within
  generalize (Token.code lexical).zip (Token.code lexical') = pairs at twins aligned
  have mentions : List.Forall₂ ((Places.along pairs).Mentions (Call.Twin pairs))
      (Mention.scan table none (Token.code lexical))
      (Mention.scan table none (Token.code lexical')) := Mention.scan_twin rfl twins
  rw [Mention.scan_file ends, Mention.scan_file ends'] at mentions
  have outside := Places.mentions_diagnostics mentions
  have calls := Places.mentions_calls mentions
  rw [Mention.diagnostics_bare, Mention.diagnostics_bare] at outside
  rw [Mention.calls_bare, Mention.calls_bare, List.forall₂_map_left_iff,
    List.forall₂_map_right_iff] at calls
  have checked : List.Forall₂ (fun c c' =>
      (Places.along pairs).SameVerdicts (c.check source) (c'.check source') ∧
        (c.check source).Same (c'.check source'))
      (Mention.calls (Mention.ofTokens table (lexical ++ [eof])))
      (Mention.calls (Mention.ofTokens table (lexical' ++ [eof']))) := by
    refine (forall₂_members calls).imp ?_
    rintro c c' ⟨member, member', twin⟩
    obtain ⟨m, found, call⟩ := List.mem_filterMap.1 member
    obtain ⟨m', found', call'⟩ := List.mem_filterMap.1 member'
    rw [Mention.call?_eq_some_iff.1 call] at found
    rw [Mention.call?_eq_some_iff.1 call'] at found'
    exact Call.same_of_twin (Mention.trimmed_of_scan found) (Mention.trimmed_of_scan found') twin
      source source'
  rw [analyze_eq source read, analyze_eq source' read']
  refine ⟨rfl, ?_, ?_⟩
  · rw [List.forall₂_map_left_iff, List.forall₂_map_right_iff]
    exact checked.imp fun c c' same => same.2
  · have said : List.Forall₂ (Places.along pairs).Diagnostics
        (((Mention.calls (Mention.ofTokens table (lexical ++ [eof]))).map (·.check source)).flatMap
          (·.diagnostics))
        (((Mention.calls (Mention.ofTokens table (lexical' ++ [eof']))).map
          (·.check source')).flatMap (·.diagnostics)) := by
      rw [List.flatMap_map, List.flatMap_map]
      exact List.rel_flatMap checked fun c c' same => same.1.diagnostics
    exact map_eq_of_forall₂ (fun d d' like => by rw [like.problem, like.message])
      (aligned.inOrder.sort (List.rel_append outside said))

/-- An empty comment may be put in front of any token of a file. The file can still be read, the same
calls are found with the same words in their arguments, the formats and the casts are read alike, and
the same is said about them. -/
theorem same_commented {table : PrinterTable} {source : Source} {tokens : List Token} {t : Token}
    (read : Token.tokenize source.name source.content = .ok tokens) (member : t ∈ tokens)
    (inside : t.kind ≠ .eof) :
    (∃ tokens', Token.tokenize (source.commented t).name (source.commented t).content = .ok tokens') ∧
      Same (source.analyze table) ((source.commented t).analyze table) := by
  obtain ⟨tokens', read', words⟩ := Token.tokenize_commented read member inside
  exact ⟨⟨tokens', read'⟩, same_of_words read read' words⟩

/-- A comment between the name of the inner call and its arguments. -/
theorem same_commented_nestedCalls :
    ∃ t, (Source.commented ⟨[], Lexeme.flatten nestedCalls⟩ t).content =
        "printf(\"%d\", printf /**/ (\"%s\", x))" ∧
      (∃ tokens', Token.tokenize [] "printf(\"%d\", printf /**/ (\"%s\", x))" = .ok tokens') ∧
      Same (Source.analyze ⟨[], Lexeme.flatten nestedCalls⟩ .standard)
        (Source.analyze ⟨[], "printf(\"%d\", printf /**/ (\"%s\", x))"⟩ .standard) := by
  obtain ⟨t, listed⟩ : ∃ t, t = (Token.place [] .first (nestedCalls ++ [⟨[], .eof, []⟩]))[5] :=
    ⟨_, rfl⟩
  have content : (Source.commented ⟨[], Lexeme.flatten nestedCalls⟩ t).content =
      "printf(\"%d\", printf /**/ (\"%s\", x))" := by
    rw [listed]
    decide +kernel
  have inside : t.kind ≠ .eof := by
    rw [listed]
    decide
  have same := @same_commented .standard ⟨[], Lexeme.flatten nestedCalls⟩ _ t tokenize_nestedCalls
    (listed ▸ List.getElem_mem _) inside
  have whole : Source.commented ⟨[], Lexeme.flatten nestedCalls⟩ t =
      ⟨[], "printf(\"%d\", printf /**/ (\"%s\", x))"⟩ := by
    rw [← content]
    rfl
  rw [whole] at same
  exact ⟨t, content, same⟩

end Analysis

end FormatLint
