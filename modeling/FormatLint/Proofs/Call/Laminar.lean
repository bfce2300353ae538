import FormatLint.Proofs.Analysis.Errors
import FormatLint.Proofs.Call.Brackets
import FormatLint.Proofs.Call.Splitting
import FormatLint.Proofs.Call.Within
import FormatLint.Proofs.Token.Lossless

/-!
How calls nest. A parenthesis that is opened in an argument is closed in it, whatever else is said
of the call that it belongs to. So of two calls the later one stands behind the other, or whole
inside one of its arguments: `Mention.calls_laminar`.
-/

namespace FormatLint

namespace Span

/-- The first span ends where the second one begins, or before. -/
def Precedes (first second : Span) : Prop := first.stop.offset ≤ second.start.offset

def Covers (outer inner : Span) : Prop :=
  outer.start.offset ≤ inner.start.offset ∧ inner.stop.offset ≤ outer.stop.offset

instance (first second : Span) : Decidable (first.Precedes second) :=
  inferInstanceAs (Decidable (_ ≤ _))

end Span

namespace Token

theorem eq_of_span {tokens : List Token}
    (ordered : tokens.Pairwise fun first second => first.span.Precedes second.span) {t u : Token}
    (front : t ∈ tokens) (back : u ∈ tokens) (same : t.span = u.span)
    (nonempty : t.span.start.offset < t.span.stop.offset) : t = u := by
  obtain ⟨before, after, rfl⟩ := List.append_of_mem front
  obtain ⟨_, later, earlier⟩ := List.pairwise_append.1 ordered
  rcases List.mem_append.1 back with inside | inside
  · have order := earlier u inside t List.mem_cons_self
    simp only [Span.Precedes, ← same] at order
    omega
  · rcases List.mem_cons.1 inside with rfl | inside
    · rfl
    · have order := List.rel_of_pairwise_cons later inside
      simp only [Span.Precedes, ← same] at order
      omega

/-- The tokens of a file: words in order, and behind them the token at its end. -/
structure Sealed (words : List Token) (eof : Token) : Prop where
  ends : eof.kind = .eof
  ordered : Ordered words
  behind : ∀ t ∈ words, t.span.Precedes eof.span

theorem Sealed.pairwise {words : List Token} {eof : Token} (sealing : Sealed words eof) :
    (words ++ [eof]).Pairwise fun t u => t.span.Precedes u.span := by
  refine List.pairwise_append.2 ⟨sealing.ordered.pairwise, List.pairwise_singleton _ _, ?_⟩
  intro t member last same
  rw [List.mem_singleton.1 same]
  exact sealing.behind t member

theorem sealed_of_tokenize {file text : Text} {tokens : List Token}
    (read : tokenize file text = .ok tokens) :
    ∃ words eof, tokens = words ++ [eof] ∧ Sealed words eof := by
  obtain ⟨gap, words, eof, rfl, ends, _, _, laid, _⟩ := laid_of_tokenize read
  have covers := covers_of_tokenize (s := ⟨file, text⟩) read
  refine ⟨words, eof, rfl, ends, laid.ordered, fun t member => ?_⟩
  exact (List.pairwise_append.1 covers.ordered).2.2 t member eof (by simp)

end Token

namespace Slot

/-- A parenthesis that is opened in a slot is closed in it. -/
theorem Fills.closes {d : Nat} {before inner : List Token} {opening : Token}
    (fills : Fills d (before ++ opening :: inner)) (opens : opening.kind = .openParen) :
    ∃ slots rest, Listed 0 slots ∧ inner = written slots ++ rest := by
  have up : opening.rise = 1 := by simp [Token.rise, opens]
  have outside := fills.depth_front
  have closed := fills.closed
  rw [Token.depth_append, Token.depth_cons, up] at closed
  have continues : ∀ t ∈ inner, endsStatement t = false :=
    fun t member => fills.continues t (by simp [member])
  obtain ⟨slots, found⟩ := exists_cut (d := 0) (by omega) continues
  obtain ⟨listed, rest, whole⟩ := cut_eq_some_iff.1 found
  exact ⟨slots, rest, listed, whole⟩

end Slot

namespace Argument

theorem existsUnique_index {arguments : List Argument} (pairwise : arguments.Pairwise Precedes)
    {p : Argument → Prop} (alone : ∀ a ∈ arguments, ∀ b ∈ arguments, p a → p b → ¬ a.Precedes b)
    {a : Argument} (member : a ∈ arguments) (holds : p a) :
    ∃! i : Fin arguments.length, p arguments[i] := by
  obtain ⟨i, short, rfl⟩ := List.getElem_of_mem member
  refine ⟨⟨i, short⟩, holds, fun j other => Fin.ext ?_⟩
  have follow := List.pairwise_iff_getElem.1 pairwise
  rcases Nat.lt_trichotomy j i with before | same | behind
  · exact absurd (follow j i j.isLt short before)
      (alone _ (List.getElem_mem _) _ (List.getElem_mem _) other holds)
  · exact same
  · exact absurd (follow i j short j.isLt behind)
      (alone _ (List.getElem_mem _) _ (List.getElem_mem _) holds other)

end Argument

namespace Site

variable {table : PrinterTable} {first second : Site} {slots : List Slot} {after : List Token}

/-- A name behind that of a call stands behind the whole call, or the argument list that begins
behind it is closed in the slot in which it begins. -/
theorem enclosure (same : first.tokens = second.tokens) (tracked₁ : first.Tracked table)
    (tracked₂ : second.Tracked table) (order : first.before.length < second.before.length)
    (lists : first.Lists slots after) :
    second.name ∈ after ∨ ∃ slot ∈ slots, ∃ inner rest left right, second.Lists inner rest ∧
      slot.tokens = left ++ second.written inner ++ right := by
  rcases name_placement same tracked₁ tracked₂ order lists with
    ⟨between, behind⟩ | ⟨earlier, slot, later, left, inside, parts, tokens, rest⟩
  · exact .inl (by simp [behind])
  · have member : slot ∈ slots := by simp [parts]
    have fills := lists.listed.fills slot member
    rw [tokens, ← List.cons_append, ← List.append_assoc] at fills
    obtain ⟨inner, right, listed, rfl⟩ := fills.closes tracked₂.opens
    refine .inr ⟨slot, member, inner, right ++ slot.stop :: (Slot.written later ++ after), left,
      right, ⟨?_, listed⟩, ?_⟩
    · rw [rest, List.append_assoc]
    · rw [tokens]
      simp [written]

def ClosedIn (s : Site) (tokens : List Token) : Prop :=
  ∃ front inner closing back,
    tokens = front ++ s.name :: (s.comments ++ s.opening :: (inner ++ closing :: back)) ∧
      closing.kind = .closeParen ∧ Token.Balanced [.round] inner

theorem ClosedIn.name_mem {s : Site} {tokens : List Token} (closed : s.ClosedIn tokens) :
    s.name ∈ tokens := by
  obtain ⟨front, inner, closing, back, rfl, _⟩ := closed
  simp

theorem closedIn_of_written {s : Site} {inner : List Slot} (listed : Slot.Listed 0 inner)
    (lead trail : List Token) : s.ClosedIn (lead ++ s.written inner ++ trail) := by
  obtain ⟨list, closing, whole, closes, _⟩ := listed.written_eq
  refine ⟨lead, list, closing, trail, ?_, closes, listed.balanced_round whole⟩
  rw [written, whole]
  simp

theorem call_covers (listed : Slot.Listed 0 slots) (s : Site)
    (ordered : Token.Ordered (s.written slots)) :
    ∀ t ∈ s.written slots, (s.call slots).span.Covers t.span := by
  obtain ⟨inner, whole, _⟩ := listed.closing_eq s.opening
  have nonempty : s.written slots ≠ [] := List.cons_ne_nil _ _
  have last : (s.written slots).getLast nonempty = Slot.closing s.opening slots := by
    have list : s.written slots =
        s.name :: (s.comments ++ s.opening :: inner) ++ [Slot.closing s.opening slots] := by
      rw [written, whole]
      simp
    simp only [list, List.getLast_concat]
  have covers := @Argument.span_covers ⟨s.written slots, nonempty⟩ ordered
  rw [Argument.span] at covers
  simp only [last] at covers
  exact covers

/-- A later name stands behind a call, or its argument list is closed in one of the arguments. -/
theorem argument_enclosure (same : first.tokens = second.tokens) (tracked₁ : first.Tracked table)
    (tracked₂ : second.Tracked table) (order : first.before.length < second.before.length)
    (ordered : first.tokens.Pairwise fun t u => t.span.Precedes u.span)
    (lists : first.Lists slots after) (proper : Slot.Proper slots) :
    (first.call slots).closing.span.Precedes second.name.span ∨
      ∃ a ∈ (first.call slots).arguments, ∃ inner rest lead trail, second.Lists inner rest ∧
        a.tokens = lead ++ second.written inner ++ trail := by
  rcases enclosure same tracked₁ tracked₂ order lists with
    behind | ⟨slot, member, inner, rest, left, right, closed, tokens⟩
  · obtain ⟨list, whole, _⟩ := lists.listed.closing_eq first.opening
    rw [lists.tokens_eq] at ordered
    refine .inl ((List.pairwise_append.1 (List.pairwise_append.1 ordered).2.1).2.2 _ ?_ _ behind)
    simp [written, whole, call]
  · obtain ⟨a, made, lead, trail, argument⟩ :=
      exists_argument_of_written proper member tracked₂ closed.listed tokens
    exact .inr ⟨a, made, inner, rest, lead, trail, closed, argument⟩

/-- A site whose name stands behind a parenthesis of the other one is the later of the two. -/
theorem order_of_precedes (same : first.tokens = second.tokens)
    (ordered : first.tokens.Pairwise fun t u => t.span.Precedes u.span)
    (nonempty : second.name.span.start.offset < second.name.span.stop.offset)
    (behind : first.opening.span.Precedes second.name.span)
    (positive : first.opening.span.start.offset < first.opening.span.stop.offset) :
    first.before.length < second.before.length := by
  rw [tokens, tokens] at same
  rw [tokens] at ordered
  have later := (List.pairwise_append.1 ordered).2.1
  have listed : first.opening ∈ first.comments ++ first.opening :: first.later := by simp
  have opening := List.rel_of_pairwise_cons later listed
  simp only [Span.Precedes] at behind opening
  rcases order_cases same with ⟨between, longer, _⟩ | ⟨_, name, _⟩ | ⟨between, longer, _⟩
  · rw [longer]
    simp
  · rw [name] at opening
    omega
  · rw [longer] at ordered
    have before := (List.pairwise_append.1 ordered).2.2 second.name (by simp) first.opening
      (by simp)
    simp only [Span.Precedes] at before
    omega

section Sealed

variable {words : List Token} {eof : Token}

theorem Lists.ordered (sealing : Token.Sealed words eof) (lists : first.Lists slots after)
    (whole : first.tokens = words ++ [eof]) : Token.Ordered (first.written slots) := by
  exact (lists.inOrder whole sealing.ends sealing.ordered).sublist (List.sublist_append_right _ _)

theorem Lists.arguments_pairwise (sealing : Token.Sealed words eof)
    (lists : first.Lists slots after) (whole : first.tokens = words ++ [eof]) :
    (Slot.arguments slots).Pairwise Argument.Precedes :=
  Slot.arguments_pairwise ((lists.ordered sealing whole).sublist (first.slots_sublist slots))

theorem Lists.argument_ordered (sealing : Token.Sealed words eof)
    (lists : first.Lists slots after) (whole : first.tokens = words ++ [eof]) {a : Argument}
    (member : a ∈ Slot.arguments slots) : Token.Ordered a.tokens := by
  have inside := argument_infix lists whole sealing.ends a member
  exact sealing.ordered.sublist inside.sublist

/-- Of two calls the later one stands behind the other, or inside exactly one of its arguments. -/
theorem call_nests (sealing : Token.Sealed words eof) (whole₁ : first.tokens = words ++ [eof])
    (whole₂ : second.tokens = words ++ [eof]) (tracked₁ : first.Tracked table)
    (tracked₂ : second.Tracked table) (order : first.before.length < second.before.length)
    {c d : Call} (read₁ : first.mention = .call c) (read₂ : second.mention = .call d) :
    c.span.Precedes d.span ∨ c.span.Covers d.span ∧
      ∃! i : Fin c.arguments.length, c.arguments[i].span.Covers d.span := by
  obtain ⟨slots, after, later, listed, proper, rfl⟩ := mention_eq_call_iff.1 read₁
  obtain ⟨slots₂, after₂, later₂, listed₂, _, rfl⟩ := mention_eq_call_iff.1 read₂
  have lists : first.Lists slots after := ⟨later, listed⟩
  rcases argument_enclosure (whole₁.trans whole₂.symm) tracked₁ tracked₂ order
    (whole₁ ▸ sealing.pairwise) lists proper with
    behind | ⟨a, made, inner, rest, lead, trail, closed, argument⟩
  · exact .inl behind
  · obtain rfl := (closed.unique ⟨later₂, listed₂⟩).symm
    obtain ⟨list, spelled, _⟩ := closed.listed.closing_eq second.opening
    have named : second.name ∈ second.written inner := by simp [written]
    have stops : Slot.closing second.opening inner ∈ second.written inner := by
      simp [written, spelled]
    have within : second.written inner ⊆ a.tokens := by
      rw [argument]
      simp
    have covers := Argument.span_covers (lists.argument_ordered sealing whole₁ made)
    have inside : a.span.Covers (second.call inner).span :=
      ⟨(covers _ (within named)).1, (covers _ (within stops)).2⟩
    have outer := call_covers listed first (lists.ordered sealing whole₁)
    have subset : a.tokens ⊆ first.written slots := by
      obtain ⟨slot, member, trimmed⟩ := Slot.mem_arguments made
      rw [trimmed]
      exact fun t found => (first.slots_sublist slots).subset
        (Slot.subset_written member (slot.trimmed_sublist.subset found))
    refine .inr ⟨⟨(outer _ (subset (within named))).1, (outer _ (subset (within stops))).2⟩, ?_⟩
    have positive := (closed.ordered sealing whole₂).nonempty _ named
    have whole := call_covers closed.listed second (closed.ordered sealing whole₂) _ named
    refine Argument.existsUnique_index (p := fun b => b.span.Covers (second.call inner).span)
      (lists.arguments_pairwise sealing whole₁) ?_ made inside
    intro b _ b' _ left right before
    simp only [Span.Covers, Argument.Precedes] at left right before whole
    omega

/-- A name between the parentheses of a call begins an argument list that is closed in exactly one
of its arguments. -/
theorem closedIn_argument (sealing : Token.Sealed words eof)
    (whole₁ : first.tokens = words ++ [eof]) (whole₂ : second.tokens = words ++ [eof])
    (tracked₁ : first.Tracked table) (tracked₂ : second.Tracked table) {c : Call}
    (read : first.mention = .call c) (behind : c.opening.span.Precedes second.name.span)
    (before : second.name.span.Precedes c.closing.span) :
    (∃! i : Fin c.arguments.length, second.ClosedIn c.arguments[i].tokens) ∧
      ∃ inner rest, second.Lists inner rest := by
  obtain ⟨slots, after, later, listed, proper, rfl⟩ := mention_eq_call_iff.1 read
  have lists : first.Lists slots after := ⟨later, listed⟩
  have ordered := lists.ordered sealing whole₁
  have same := whole₁.trans whole₂.symm
  have pairwise : first.tokens.Pairwise fun t u => t.span.Precedes u.span :=
    whole₁ ▸ sealing.pairwise
  have positive : second.name.span.start.offset < second.name.span.stop.offset := by
    have member : second.name ∈ words ++ [eof] := by
      rw [← whole₂, tokens]
      simp
    rcases List.mem_append.1 member with word | last
    · exact sealing.ordered.nonempty _ word
    · have ident := tracked₂.ident
      rw [List.mem_singleton.1 last, sealing.ends] at ident
      cases ident
  have order := order_of_precedes same pairwise positive behind
    (ordered.nonempty _ (by simp [written]))
  rcases argument_enclosure same tracked₁ tracked₂ order pairwise lists proper with
    closed | ⟨a, made, inner, rest, lead, trail, closed, argument⟩
  · obtain ⟨list, spelled, _⟩ := listed.closing_eq first.opening
    have stop := ordered.nonempty (Slot.closing first.opening slots) (by simp [written, spelled])
    simp only [Span.Precedes, call] at before closed
    omega
  · refine ⟨?_, inner, rest, closed⟩
    refine Argument.existsUnique_index (p := fun a => second.ClosedIn a.tokens)
      (lists.arguments_pairwise sealing whole₁) ?_ made ?_
    · intro b front b' back left right order
      have covers := Argument.span_covers (lists.argument_ordered sealing whole₁ front) _
        left.name_mem
      have covers' := Argument.span_covers (lists.argument_ordered sealing whole₁ back) _
        right.name_mem
      simp only [Argument.Precedes] at order
      omega
    · rw [argument]
      exact closedIn_of_written closed.listed lead trail

end Sealed

end Site

namespace Mention

variable {table : PrinterTable} {tokens : List Token}

theorem readCall_unbalanced {printer : Printer} {name opening : Token} {rest : List Token}
    {d : Diagnostic} (read : readCall printer name opening rest = .malformed d)
    (unbalanced : d.problem = .unbalancedParentheses) :
    Slot.cut 0 rest = none ∧
      d = .unbalancedParentheses printer.name name.span opening.span := by
  rcases readCall_malformed_inversion read with never | ⟨_, rfl⟩
  · exact never
  · cases unbalanced

/-- What is reported as unbalanced is a site whose argument list is never closed. -/
theorem unbalanced_site {d : Diagnostic} (found : d ∈ diagnostics (ofTokens table tokens))
    (unbalanced : d.problem = .unbalancedParentheses) :
    ∃ s ∈ Site.ofTokens table tokens, Slot.cut 0 s.later = none ∧
      d.labels.map (·.span) = [s.opening.span, s.name.span] := by
  rw [diagnostics_eq] at found
  obtain ⟨s, member, malformed⟩ := List.mem_filterMap.1 found
  have read : s.mention = .malformed d := by
    cases mention : s.mention <;> simp_all [diagnostic?]
  obtain ⟨never, rfl⟩ := readCall_unbalanced read unbalanced
  exact ⟨s, member, never, rfl⟩

theorem unbalanced_elsewhere {words : List Token} {eof : Token}
    (sealing : Token.Sealed words eof) (distinct : (words ++ [eof]).Nodup) {s : Site}
    {inner : List Slot} {rest : List Token} (whole : s.tokens = words ++ [eof])
    (tracked : s.Tracked table) (lists : s.Lists inner rest) {d : Diagnostic}
    (reported : d ∈ diagnostics (ofTokens table (words ++ [eof])))
    (unbalanced : d.problem = .unbalancedParentheses) :
    s.name.span ∉ d.labels.map (·.span) := by
  intro labelled
  obtain ⟨other, member, never, labels⟩ := unbalanced_site reported unbalanced
  obtain ⟨site, tracked'⟩ := Site.mem_ofTokens_iff.1 member
  have positive := (lists.ordered sealing whole).nonempty s.name (by simp [Site.written])
  have here : s.name ∈ words ++ [eof] := by
    rw [← whole, Site.tokens]
    simp
  rw [labels] at labelled
  rcases List.mem_cons.1 labelled with opening | labelled
  · have same := Token.eq_of_span sealing.pairwise here
      (by rw [← site, Site.tokens]; simp) opening positive
    have ident := tracked.ident
    rw [same, tracked'.opens] at ident
    cases ident
  · have same := Token.eq_of_span sealing.pairwise here
      (by rw [← site, Site.tokens]; simp) (List.mem_singleton.1 labelled) positive
    -- The reported site has the same name, so it is this one, whose list is closed.
    obtain rfl := List.inj_on_of_nodup_map (Site.names_nodup distinct)
      (Site.mem_ofTokens_iff.2 ⟨whole, tracked⟩) member same
    rw [Slot.cut_eq_some_iff.2 ⟨lists.listed, rest, lists.later⟩] at never
    cases never

/-- Of two calls of a file the later one stands behind the other, or inside exactly one of its
arguments. Whatever stands between the parentheses of a call and could be one itself is closed in
exactly one of the arguments, so it is not reported as unbalanced. -/
theorem calls_laminar {file text : Text} (read : Token.tokenize file text = .ok tokens) :
    (calls (ofTokens table tokens)).Pairwise (fun first second =>
      first.span.Precedes second.span ∨ first.span.Covers second.span ∧
        ∃! i : Fin first.arguments.length, first.arguments[i].span.Covers second.span) ∧
    ∀ c ∈ calls (ofTokens table tokens), ∀ s : Site, s.tokens = tokens → s.Tracked table →
      c.opening.span.Precedes s.name.span → s.name.span.Precedes c.closing.span →
        (∃! i : Fin c.arguments.length, s.ClosedIn c.arguments[i].tokens) ∧
        ∀ d ∈ diagnostics (ofTokens table tokens), d.problem = .unbalancedParentheses →
          s.name.span ∉ d.labels.map (·.span) := by
  have distinct := Token.nodup_of_tokenize read
  obtain ⟨words, eof, rfl, sealing⟩ := Token.sealed_of_tokenize read
  constructor
  · rw [calls_eq, List.pairwise_filterMap]
    refine (Site.ofTokens_pairwise table (words ++ [eof])).imp_of_mem ?_
    intro first second front back order c call₁ d call₂
    obtain ⟨whole₁, tracked₁⟩ := Site.mem_ofTokens_iff.1 front
    obtain ⟨whole₂, tracked₂⟩ := Site.mem_ofTokens_iff.1 back
    exact Site.call_nests sealing whole₁ whole₂ tracked₁ tracked₂ order
      (call?_eq_some_iff.1 call₁) (call?_eq_some_iff.1 call₂)
  · intro c found s whole tracked behind before
    rw [calls_eq] at found
    obtain ⟨first, listed, call⟩ := List.mem_filterMap.1 found
    obtain ⟨whole₁, tracked₁⟩ := Site.mem_ofTokens_iff.1 listed
    obtain ⟨inside, inner, rest, lists⟩ := Site.closedIn_argument sealing whole₁ whole tracked₁
      tracked (call?_eq_some_iff.1 call) behind before
    exact ⟨inside, fun d reported unbalanced =>
      unbalanced_elsewhere sealing distinct whole tracked lists reported unbalanced⟩

/-- A call with another call and a malformed one for its arguments. -/
def gapInside : List Lexeme :=
  [⟨[], .ident, "printf"⟩, ⟨[], .openParen, "("⟩, ⟨[], .string, "\"%s\""⟩, ⟨[], .comma, ","⟩,
   ⟨[.char ' '], .ident, "snprintf"⟩, ⟨[], .openParen, "("⟩, ⟨[], .ident, "s"⟩, ⟨[], .comma, ","⟩,
   ⟨[.char ' '], .other, "9"⟩, ⟨[], .comma, ","⟩, ⟨[.char ' '], .string, "\"a\""⟩,
   ⟨[], .closeParen, ")"⟩, ⟨[], .comma, ","⟩, ⟨[.char ' '], .ident, "printf"⟩,
   ⟨[], .openParen, "("⟩, ⟨[], .comma, ","⟩, ⟨[], .closeParen, ")"⟩, ⟨[], .closeParen, ")"⟩,
   ⟨[], .punct, ";"⟩]

theorem tokenize_gapInside :
    Token.tokenize [] "printf(\"%s\", snprintf(s, 9, \"a\"), printf(,));" =
      .ok (Token.place [] .first (gapInside ++ [⟨[], .eof, []⟩])) := by
  have chain : Lexeme.Chain gapInside [] := by
    repeat' first
      | exact .nil
      | refine .cons (by decide) (by decide) (Head.read_iff_form.1 rfl) ?_
  rw [show Text.ofString "printf(\"%s\", snprintf(s, 9, \"a\"), printf(,));" =
    Lexeme.flatten gapInside by decide, Lexeme.tokenize_words chain]

theorem calls_laminar_gapInside :
    ∃ tokens outer inner first second gap,
      Token.tokenize [] "printf(\"%s\", snprintf(s, 9, \"a\"), printf(,));" = .ok tokens ∧
      calls (ofTokens .standard tokens) = [outer, inner] ∧
      Site.ofTokens .standard tokens = [first, second, gap] ∧
      gap.tokens = tokens ∧ gap.Tracked .standard ∧
      outer.opening.span.Precedes gap.name.span ∧ gap.name.span.Precedes outer.closing.span ∧
      (outer.span.Covers inner.span ∧
        ∃! i : Fin outer.arguments.length, outer.arguments[i].span.Covers inner.span) ∧
      (∃! i : Fin outer.arguments.length, gap.ClosedIn outer.arguments[i].tokens) ∧
      (diagnostics (ofTokens .standard tokens)).map (·.problem) = [.emptyArgument] ∧
      ∀ d ∈ diagnostics (ofTokens .standard tokens), d.problem = .unbalancedParentheses →
        gap.name.span ∉ d.labels.map (·.span) := by
  obtain ⟨nested, closed⟩ := @calls_laminar .standard _ _ _ tokenize_gapInside
  obtain ⟨outer, inner, first, second, gap, found, sites, apart, behind, before⟩ :
      ∃ outer inner first second gap,
        calls (ofTokens .standard (Token.place [] .first (gapInside ++ [⟨[], .eof, []⟩]))) =
          [outer, inner] ∧
        Site.ofTokens .standard (Token.place [] .first (gapInside ++ [⟨[], .eof, []⟩])) =
          [first, second, gap] ∧ ¬ outer.span.Precedes inner.span ∧
        outer.opening.span.Precedes gap.name.span ∧ gap.name.span.Precedes outer.closing.span :=
    ⟨_, _, _, _, _, rfl, rfl, by decide, by decide, by decide⟩
  obtain ⟨whole, tracked⟩ := Site.mem_ofTokens_iff.1
    (show gap ∈ Site.ofTokens _ _ by rw [sites]; simp)
  obtain ⟨inside, unreported⟩ := closed outer (by rw [found]; simp) gap whole tracked behind before
  rw [found] at nested
  have pair := (List.rel_of_pairwise_cons nested List.mem_cons_self).resolve_left apart
  exact ⟨_, outer, inner, first, second, gap, tokenize_gapInside, found, sites, whole, tracked,
    behind, before, pair, inside, by rfl, unreported⟩

end Mention

end FormatLint
