import FormatLint.Proofs.Call.Within
import FormatLint.Proofs.Revision.CastSlots

/-!
Writing out the casts call by call, the outer call before those in its arguments. When the turn of a
call comes, it still stands there as it stood in the file: the casts that are there are opened in
front of it and closed behind it, or elsewhere. `Mention.scan_recast` says by induction over the calls
what becomes of all mentions.
-/

namespace FormatLint

open Insertion (wordsOf)
open Castable (recastTokens openings closings)

/-- An argument that a call stands in neither begins behind the name of the call nor ends in front of
its last parenthesis. -/
theorem Argument.around_outside {a : Argument} {left right inner : List Token}
    {name opening closing : Token}
    (tokens : a.tokens = left ++ (name :: opening :: (inner ++ [closing])) ++ right)
    (distinct : a.tokens.Nodup) :
    a.first ∉ opening :: (inner ++ [closing]) ∧ a.last ∉ name :: opening :: inner := by
  constructor
  · have first : a.first ∉ a.tokens.tail := by
      rw [← List.cons_head_tail a.nonempty] at distinct
      exact (List.nodup_cons.1 distinct).1
    have whole : a.tokens = (left ++ [name]) ++ (opening :: (inner ++ [closing]) ++ right) := by
      simp [tokens]
    rw [whole, List.tail_append_of_ne_nil (by simp)] at first
    exact fun again => first (List.mem_append_right _ (List.mem_append_left _ again))
  · have last : a.last ∉ a.tokens.dropLast := by
      rw [← List.dropLast_append_getLast a.nonempty] at distinct
      exact fun again => (List.nodup_append.1 distinct).2.2 _ again _ List.mem_cons_self rfl
    have whole : a.tokens = (left ++ (name :: opening :: inner)) ++ (closing :: right) := by
      simp [tokens]
    rw [whole, List.dropLast_append_of_ne_nil (by simp)] at last
    exact fun again => last (List.mem_append_left _ (List.mem_append_right _ again))

/-- Two slots of a list in which no token stands twice are the same or share no token. -/
theorem Slot.eq_or_disjoint {earlier later : List Slot} {s slot : Slot}
    (distinct : (Slot.written (earlier ++ s :: later)).Nodup) (listed : slot ∈ earlier ++ s :: later) :
    slot = s ∨ slot.tokens.Disjoint s.tokens := by
  rw [Slot.written_append, Slot.written_cons] at distinct
  obtain ⟨_, rest, front⟩ := List.nodup_append.1 distinct
  obtain ⟨_, _, back⟩ := List.nodup_append.1 rest
  rcases List.mem_append.1 listed with inside | inside
  · refine .inr fun t found again => ?_
    exact front t (Slot.subset_written inside found) t (List.mem_append_left _ again) rfl
  · rcases List.mem_cons.1 inside with same | inside
    · exact .inl same
    · refine .inr fun t found again => ?_
      exact back t again t (List.mem_cons_of_mem _ (Slot.subset_written inside found)) rfl

namespace Site

variable {table : PrinterTable}

theorem Tracked.comments_eq_nil {s : Site} (tracked : s.Tracked table)
    (plain : ∀ t ∈ s.tokens, t.kind ≠ .comment) : s.comments = [] := by
  refine List.eq_nil_iff_forall_not_mem.2 fun t member => ?_
  exact plain t (by simp [tokens, member]) (tracked.comments t member)

/-- The arguments of a call begin and end outside of any later call. -/
theorem argument_outside {first second : Site} (same : first.tokens = second.tokens)
    (tracked₁ : first.Tracked table) (tracked₂ : second.Tracked table)
    (order : first.before.length < second.before.length) {slots₁ slots₂ : List Slot}
    {after₁ after₂ : List Token} (lists₁ : first.Lists slots₁ after₁)
    (lists₂ : second.Lists slots₂ after₂) (plain : ∀ t ∈ first.tokens, t.kind ≠ .comment)
    (distinct : first.tokens.Nodup) {a : Argument} (member : a ∈ Slot.arguments slots₁)
    {inner : List Token} {closing : Token} (list : Slot.written slots₂ = inner ++ [closing]) :
    a.first ∉ second.opening :: Slot.written slots₂ ∧
      a.last ∉ second.name :: second.opening :: inner := by
  have block : second.written slots₂ = second.name :: second.opening :: (inner ++ [closing]) := by
    rw [written, tracked₂.comments_eq_nil (same ▸ plain), list]
    rfl
  have apart (disjoint : a.tokens.Disjoint (second.written slots₂)) :
      a.first ∉ second.opening :: Slot.written slots₂ ∧
        a.last ∉ second.name :: second.opening :: inner := by
    rw [block] at disjoint
    rw [list]
    refine ⟨fun again => disjoint a.first_mem (List.mem_cons_of_mem _ again), fun again =>
      disjoint a.last_mem ?_⟩
    rw [← List.cons_append, ← List.cons_append]
    exact List.mem_append_left _ again
  obtain ⟨slot, listed, trimmed⟩ := Slot.mem_arguments member
  rw [lists₁.tokens_eq] at distinct plain
  have inList : ∀ t ∈ slot.tokens, t ∈ first.written slots₁ := fun t found => by
    simp [written, Slot.subset_written listed found]
  rw [Slot.trimmed, Token.trimComments_plain fun t found => plain t (by simp [inList t found])]
    at trimmed
  rcases placement same tracked₁ tracked₂ order lists₁ lists₂ with
    ⟨between, behind⟩ | ⟨earlier, s, later, left, right, rfl, tokens⟩
  · rw [behind] at distinct
    refine apart fun t front back => ?_
    refine (List.nodup_append.1 (List.nodup_append.1 distinct).2.1).2.2 t (inList t (trimmed ▸ front))
      t ?_ rfl
    simp [back]
  · have slots := (List.nodup_append.1 (List.nodup_append.1 distinct).2.1).1.sublist
      (first.slots_sublist _)
    rcases Slot.eq_or_disjoint slots listed with rfl | disjoint
    · rw [list]
      rw [← trimmed, block] at tokens
      refine Argument.around_outside tokens (slots.sublist ?_)
      rw [trimmed, Slot.written_append, Slot.written_cons]
      exact (List.sublist_append_left _ _).trans (List.sublist_append_right _ _)
    · rw [← trimmed, tokens] at disjoint
      exact apart fun t found again => disjoint found (by simp [again])

end Site
namespace Castable

variable {o : Nat} {casts : List (Argument × Text)} {tokens front back : List Token} {t u : Token}

theorem mem_recastTokens {t : Token} (member : t ∈ recastTokens o casts tokens) :
    t ∈ tokens ∨ ∃ word, t = Token.beyond o word := by
  obtain ⟨u, listed, inside⟩ := List.mem_flatMap.1 member
  simp only [List.mem_append, List.mem_cons, List.mem_map] at inside
  rcases inside with ⟨word, _, rfl⟩ | rfl | ⟨word, _, rfl⟩
  · exact .inr ⟨word, rfl⟩
  · exact .inl listed
  · exact .inr ⟨word, rfl⟩

theorem openings_last (casts : List (Argument × Text)) (t : Token) :
    ∀ word ∈ (wordsOf (openings casts t)).getLast?, word = (.openParen, Text.ofString "(") := by
  rw [openings]
  generalize casts.filter (·.1.first = t) = opened
  intro word last
  rcases List.eq_nil_or_concat opened with rfl | ⟨front, cast, rfl⟩
  · cases last
  · rw [List.concat_eq_append, List.map_append, List.map_singleton, wordsOf, List.flatMap_append,
      List.flatMap_singleton, CType.opening_words, ← List.append_assoc, List.getLast?_concat] at last
    exact (Option.some.inj last).symm

theorem closings_word {casts : List (Argument × Text)} {t : Token} :
    ∀ word ∈ wordsOf (closings casts t), word = (.closeParen, Text.ofString ")") := by
  intro word member
  obtain ⟨i, listed, inside⟩ := List.mem_flatMap.1 member
  obtain ⟨_, _, rfl⟩ := List.mem_map.1 listed
  simpa [CType.closing] using inside

theorem openings_plain (known : ∀ cast ∈ casts, CType.Plain cast.2) (t : Token) :
    ∀ word ∈ wordsOf (openings casts t), word.1 ≠ .comment := by
  intro word member
  obtain ⟨i, listed, inside⟩ := List.mem_flatMap.1 member
  obtain ⟨cast, found, rfl⟩ := List.mem_map.1 listed
  simp only [CType.opening, List.mem_append, List.mem_cons, List.not_mem_nil, or_false] at inside
  rcases inside with (rfl | inside) | rfl | rfl
  · decide
  · rcases (known cast (List.mem_filter.1 found).1).kinds word inside with kind | rfl
    · simp [kind]
    · decide
  · decide
  · decide

theorem recastTokens_plain (known : ∀ cast ∈ casts, CType.Plain cast.2)
    (plain : ∀ t ∈ tokens, t.kind ≠ .comment) :
    ∀ t ∈ recastTokens o casts tokens, t.kind ≠ .comment := by
  intro t member
  obtain ⟨u, listed, inside⟩ := List.mem_flatMap.1 member
  simp only [List.mem_append, List.mem_cons, List.mem_map] at inside
  rcases inside with ⟨word, opened, rfl⟩ | rfl | ⟨word, closed, rfl⟩
  · exact openings_plain known u word opened
  · exact plain t listed
  · rw [closings_word word closed]
    exact nofun

/-- Tokens in front of the token `t`, with the casts that are opened there. -/
def recastBefore (o : Nat) (casts : List (Argument × Text)) (front : List Token) (t : Token) :
    List Token :=
  recastTokens o casts front ++ (wordsOf (openings casts t)).map (Token.beyond o)

/-- The casts that are closed behind the token `t`, with the tokens that follow it. -/
def recastBehind (o : Nat) (casts : List (Argument × Text)) (t : Token) (back : List Token) :
    List Token :=
  (wordsOf (closings casts t)).map (Token.beyond o) ++ recastTokens o casts back

theorem openings_declare (o : Nat) (casts : List (Argument × Text)) (t : Token) :
    ((wordsOf (openings casts t)).map (Token.beyond o)).getLast?.any Mention.declares = false := by
  rw [List.getLast?_map]
  cases last : (wordsOf (openings casts t)).getLast? with
  | none => rfl
  | some word =>
      rw [openings_last casts t word last]
      simp [Mention.declares, Token.beyond, Token.isPunct]

theorem closings_declare (o : Nat) (casts : List (Argument × Text)) (t : Token) :
    ((wordsOf (closings casts t)).map (Token.beyond o)).getLast?.any Mention.declares = false := by
  rw [List.getLast?_map]
  cases last : (wordsOf (closings casts t)).getLast? with
  | none => rfl
  | some word =>
      rw [closings_word word (List.mem_of_getLast? last)]
      simp [Mention.declares, Token.beyond, Token.isPunct]

theorem recastBefore_declares (o : Nat) (casts : List (Argument × Text)) (t : Token)
    (free : front.getLast?.any Mention.declares = false) :
    (recastBefore o casts front t).getLast?.any Mention.declares = false := by
  have last {left right : List Token} (quietLeft : left.getLast?.any Mention.declares = false)
      (quietRight : right.getLast?.any Mention.declares = false) :
      (left ++ right).getLast?.any Mention.declares = false := by
    rw [List.getLast?_append]
    cases ends : right.getLast? with
    | none => exact quietLeft
    | some u =>
        rw [ends] at quietRight
        exact quietRight
  refine last ?_ (openings_declare o casts t)
  rcases List.eq_nil_or_concat front with rfl | ⟨front, u, rfl⟩
  · rfl
  · rw [List.concat_eq_append, List.getLast?_concat] at free
    have tail : recastTokens o casts [u] = ((wordsOf (openings casts u)).map (Token.beyond o) ++
        [u]) ++ (wordsOf (closings casts u)).map (Token.beyond o) := by
      simp [recastTokens]
    rw [List.concat_eq_append, recastTokens_append, tail, ← List.append_assoc]
    refine last ?_ (closings_declare o casts u)
    rw [← List.append_assoc, List.getLast?_concat]
    exact free

theorem ne_beyond (within : u.span.start.offset < o) (word : Word) : u ≠ Token.beyond o word := by
  rintro rfl
  exact Nat.lt_irrefl o within

theorem mem_of_recastTokens {tokens : List Token} (within : u.span.start.offset < o)
    (member : u ∈ recastTokens o casts tokens) : u ∈ tokens := by
  rcases mem_recastTokens member with found | ⟨word, same⟩
  · exact found
  · exact absurd same (ne_beyond within word)

theorem mem_of_recastBefore (within : u.span.start.offset < o)
    (member : u ∈ recastBefore o casts front t) : u ∈ front := by
  rcases List.mem_append.1 member with member | member
  · exact mem_of_recastTokens within member
  · obtain ⟨word, _, same⟩ := List.mem_map.1 member
    exact absurd same.symm (ne_beyond within word)

theorem mem_of_recastBehind (within : u.span.start.offset < o)
    (member : u ∈ recastBehind o casts t back) : u ∈ back := by
  rcases List.mem_append.1 member with member | member
  · obtain ⟨word, _, same⟩ := List.mem_map.1 member
    exact absurd same.symm (ne_beyond within word)
  · exact mem_of_recastTokens within member

theorem recastBefore_plain (known : ∀ cast ∈ casts, CType.Plain cast.2)
    (plain : ∀ u ∈ front, u.kind ≠ .comment) :
    ∀ u ∈ recastBefore o casts front t, u.kind ≠ .comment := by
  intro u member
  rcases List.mem_append.1 member with member | member
  · exact recastTokens_plain known plain u member
  · obtain ⟨word, opened, rfl⟩ := List.mem_map.1 member
    exact openings_plain known t word opened

/-- Casts that are opened and closed between two parentheses, among others that are opened and closed
outside of them. -/
theorem recastTokens_around (o : Nat) {earlier : List (Argument × Text)}
    (own : List (Argument × Text)) {front inner back : List Token} {name opening closing : Token}
    (distinct : (front ++ name :: opening :: (inner ++ closing :: back)).Nodup)
    (outside : ∀ cast ∈ earlier, cast.1.first ∉ opening :: (inner ++ [closing]) ∧
      cast.1.last ∉ name :: opening :: inner)
    (inside : ∀ cast ∈ own, cast.1.first ∈ inner ∧ cast.1.last ∈ inner) :
    recastTokens o (earlier ++ own) (front ++ name :: opening :: (inner ++ closing :: back)) =
      recastBefore o earlier front name ++
        (name :: opening :: (recastTokens o own inner ++ [closing]) ++
          recastBehind o earlier closing back) := by
  have away : inner.Disjoint (front ++ name :: opening :: closing :: back) := by
    have moved : (front ++ name :: opening :: (inner ++ closing :: back)).Perm
        (inner ++ (front ++ name :: opening :: closing :: back)) := by
      grind
    exact List.disjoint_of_nodup_append (moved.nodup_iff.1 distinct)
  have apart (tokens : List Token) (among : tokens ⊆ front ++ name :: opening :: closing :: back) :
      ∀ cast ∈ own, Elsewhere tokens cast := fun cast member =>
    ⟨fun again => away (inside cast member).1 (among again),
      fun again => away (inside cast member).2 (among again)⟩
  have before := recastTokens_front o earlier (apart front (by simp))
  have begins := recastTokens_front o earlier (apart [name, opening] (by simp))
  have middle : recastTokens o (earlier ++ own) inner = recastTokens o own inner := by
    refine recastTokens_back o own fun cast member => ⟨fun again => ?_, fun again => ?_⟩
    · exact (outside cast member).1 (by simp [again])
    · exact (outside cast member).2 (by simp [again])
  have ends := recastTokens_front o earlier (apart [closing] (by simp))
  have behind := recastTokens_front o earlier (apart back (by simp [List.subset_def]; tauto))
  have opened : recastTokens o earlier [name, opening] =
      (wordsOf (openings earlier name)).map (Token.beyond o) ++ [name, opening] := by
    have first : closings earlier name = [] :=
      closings_elsewhere fun cast member same => (outside cast member).2 (by simp [same])
    have second : recastTokens o earlier [opening] = [opening] :=
      recastTokens_elsewhere fun cast member =>
        ⟨fun again => (outside cast member).1 (by simp_all), fun again =>
          (outside cast member).2 (by simp_all)⟩
    rw [← List.singleton_append, recastTokens_append, second]
    simp [recastTokens, first, wordsOf]
  have closed : recastTokens o earlier [closing] =
      closing :: (wordsOf (closings earlier closing)).map (Token.beyond o) := by
    have first : openings earlier closing = [] :=
      openings_elsewhere fun cast member same => (outside cast member).1 (by simp [same])
    simp [recastTokens, first, wordsOf]
  have whole : front ++ name :: opening :: (inner ++ closing :: back) =
      front ++ ([name, opening] ++ (inner ++ ([closing] ++ back))) := by simp
  rw [whole]
  simp only [recastTokens_append, before, begins, opened, middle, ends, closed, behind, recastBefore,
    recastBehind]
  simp

end Castable

namespace Site

open Castable (recastBefore recastBehind)

variable {source : Source} {o : Nat}

/-- The casts that the call at the site gets. -/
def casts (source : Source) (s : Site) : List (Argument × Text) :=
  (s.mention.call?.map fun c => (c.check source).castArguments).getD []

theorem casts_call {s : Site} {slots : List Slot} {after : List Token} (lists : s.Lists slots after)
    (proper : Slot.Proper slots) :
    s.casts source = ((s.call slots).check source).castArguments := by
  rw [casts, mention_eq_call_iff.2 ⟨slots, after, lists.later, lists.listed, proper, rfl⟩]
  rfl

theorem casts_arguments {s : Site} {cast : Argument × Text} (member : cast ∈ s.casts source) :
    ∃ slots after, s.Lists slots after ∧ Slot.Proper slots ∧ cast.1 ∈ Slot.arguments slots ∧
      some cast.2 ∈ ((s.call slots).check source).castTypes := by
  unfold casts at member
  cases mention : s.mention.call? with
  | none =>
      rw [mention] at member
      cases member
  | some c =>
      rw [mention] at member
      obtain ⟨slots, after, later, listed, proper, rfl⟩ :=
        mention_eq_call_iff.1 (Mention.call?_eq_some_iff.1 mention)
      simp only [Option.map_some, Option.getD_some, Call.castArguments_eq] at member
      obtain ⟨⟨a, cType⟩, inside, made⟩ := List.mem_filterMap.1 member
      obtain ⟨cType, rfl, rfl⟩ := Option.map_eq_some_iff.1 made
      obtain ⟨argument, type⟩ := List.of_mem_zip inside
      exact ⟨slots, after, ⟨later, listed⟩, proper, argument, type⟩

/-- The casts of a call open and close strictly between its parentheses. -/
theorem casts_inside {s : Site} {slots : List Slot} {after : List Token} (lists : s.Lists slots after)
    {inner : List Token} {closing : Token} (list : Slot.written slots = inner ++ [closing]) :
    ∀ cast ∈ s.casts source, cast.1.first ∈ inner ∧ cast.1.last ∈ inner := by
  obtain ⟨inner', list', within⟩ := lists.listed.closing_eq s.opening
  obtain ⟨rfl, _⟩ := List.append_inj' (list.symm.trans list') rfl
  intro cast member
  obtain ⟨slots₁, after₁, lists₁, _, argument, _⟩ := casts_arguments member
  obtain rfl := lists.unique lists₁
  obtain ⟨slot, listed, trimmed⟩ := Slot.mem_arguments argument
  have part : cast.1.tokens ⊆ slot.tokens := trimmed ▸ slot.trimmed_sublist.subset
  exact ⟨within slot listed (part cast.1.first_mem), within slot listed (part cast.1.last_mem)⟩

theorem casts_plain (source : Source) {s : Site} (tracked : s.Tracked .standard) :
    ∀ cast ∈ s.casts source, CType.Plain cast.2 := by
  intro cast member
  obtain ⟨slots, after, _, _, _, type⟩ := casts_arguments member
  exact Call.castTypes_plain (s.call slots) source tracked.listed cast.2 type

theorem name_not_mem_before {table : PrinterTable} {tokens : List Token} {done todo : List Site}
    {s s' : Site} (sites : ofTokens table tokens = done ++ s :: todo) (distinct : tokens.Nodup)
    (later : s' ∈ s :: todo) : s'.name ∉ s.before := by
  have listed : s ∈ ofTokens table tokens := by simp [sites]
  have listed' : s' ∈ ofTokens table tokens := sites ▸ List.mem_append_right _ later
  obtain ⟨whole, _⟩ := mem_ofTokens_iff.1 listed
  obtain ⟨whole', _⟩ := mem_ofTokens_iff.1 listed'
  have front : s.before <+: s'.before := by
    rcases List.mem_cons.1 later with rfl | later
    · exact List.prefix_refl _
    · have order := ofTokens_pairwise table tokens
      rw [sites, List.pairwise_append] at order
      have shorter := List.rel_of_pairwise_cons order.2.1 later
      exact List.prefix_of_prefix_length_le ⟨_, whole⟩ ⟨_, whole'⟩ (Nat.le_of_lt shorter)
  rw [← whole', Site.tokens, List.nodup_append] at distinct
  exact fun early => distinct.2.2 s'.name (front.subset early) s'.name (by simp) rfl

section Earlier

variable {tokens : List Token} {done todo : List Site} {s : Site}
  (sites : ofTokens .standard tokens = done ++ s :: todo)
include sites

theorem earlier_plain (source : Source) : ∀ cast ∈ done.flatMap (casts source), CType.Plain cast.2 := by
  intro cast member
  obtain ⟨s', early, inside⟩ := List.mem_flatMap.1 member
  have listed : s' ∈ ofTokens .standard tokens := by simp [sites, early]
  exact casts_plain source (mem_ofTokens_iff.1 listed).2 cast inside

/-- The casts of earlier calls open and close outside of a call. -/
theorem earlier_outside (source : Source) (plain : ∀ t ∈ tokens, t.kind ≠ .comment) (distinct : tokens.Nodup)
    {slots : List Slot} {after inner : List Token} {closing : Token} (lists : s.Lists slots after)
    (list : Slot.written slots = inner ++ [closing]) : ∀ cast ∈ done.flatMap (casts source),
      cast.1.first ∉ s.opening :: (inner ++ [closing]) ∧
        cast.1.last ∉ s.name :: s.opening :: inner := by
  intro cast member
  obtain ⟨s', early, inside⟩ := List.mem_flatMap.1 member
  have listed' : s' ∈ ofTokens .standard tokens := by simp [sites, early]
  have listed : s ∈ ofTokens .standard tokens := by simp [sites]
  obtain ⟨whole', tracked'⟩ := mem_ofTokens_iff.1 listed'
  obtain ⟨whole, tracked⟩ := mem_ofTokens_iff.1 listed
  have order := ofTokens_pairwise .standard tokens
  rw [sites, List.pairwise_append] at order
  obtain ⟨slots₁, after₁, lists₁, _, argument, _⟩ := casts_arguments inside
  rw [← list]
  exact argument_outside (whole'.trans whole.symm) tracked' tracked
    (order.2.2 s' early s List.mem_cons_self) lists₁ lists (whole' ▸ plain) (whole' ▸ distinct)
    argument list

end Earlier

/-- The call at a site before and after its casts are written into it, among other casts that open
and close outside of it. -/
theorem recast_block {s : Site} {slots slots' : List Slot} {after inner : List Token}
    {closing : Token} {p : Patch} {earlier : List (Argument × Text)} (lists : s.Lists slots after)
    (proper : Slot.Proper slots) (list : Slot.written slots = inner ++ [closing])
    (patch : s.CastPatch source o slots slots' p) (comments : s.comments = [])
    (distinct : s.tokens.Nodup)
    (outside : ∀ cast ∈ earlier, cast.1.first ∉ s.opening :: (inner ++ [closing]) ∧
      cast.1.last ∉ s.name :: s.opening :: inner) :
    recastTokens o earlier s.tokens = recastBefore o earlier s.before s.name ++
        (p.old ++ recastBehind o earlier closing after) ∧
      recastTokens o (earlier ++ s.casts source) s.tokens = recastBefore o earlier s.before s.name ++
        (p.new ++ recastBehind o earlier closing after) := by
  have whole : s.tokens = s.before ++ s.name :: s.opening :: (inner ++ closing :: after) := by
    rw [lists.tokens_eq, written, comments, list]
    simp
  rw [whole] at distinct
  have inside : ∀ cast ∈ s.casts source, cast.1.first ∈ inner ∧ cast.1.last ∈ inner :=
    casts_inside lists list
  have ends : recastTokens o (s.casts source) [closing] = [closing] := by
    have apart : inner.Disjoint (closing :: after) :=
      List.disjoint_of_nodup_append
        (List.nodup_cons.1 (List.nodup_cons.1 (List.nodup_append.1 distinct).2.1).2).2
    refine Castable.recastTokens_elsewhere fun cast member => ⟨fun again => ?_, fun again => ?_⟩
    · exact apart (inside cast member).1 (by simp [List.mem_singleton.1 again])
    · exact apart (inside cast member).2 (by simp [List.mem_singleton.1 again])
  have old : p.old = s.name :: s.opening :: (inner ++ [closing]) := by
    rw [patch.between.old, patch.name, patch.opening, list]
  have new : p.new = s.name :: s.opening :: (recastTokens o (s.casts source) inner ++ [closing]) := by
    rw [patch.between.new, patch.name', patch.opening, patch.written, ← casts_call lists proper,
      list, Castable.recastTokens_append, ends]
  constructor
  · have around := Castable.recastTokens_around o [] distinct outside (by simp)
    rwa [List.append_nil, Castable.recastTokens_nil, ← whole, ← old] at around
  · have around := Castable.recastTokens_around o (s.casts source) distinct outside inside
    rwa [← whole, ← new] at around

/-- The name of a call stands neither between its parentheses nor behind them. -/
theorem name_not_mem_behind {s : Site} {slots : List Slot} {after : List Token}
    (lists : s.Lists slots after) (distinct : s.tokens.Nodup) :
    s.name ∉ s.opening :: (Slot.written slots ++ after) := by
  rw [lists.tokens_eq, written, List.cons_append, List.append_assoc] at distinct
  have fresh := (List.nodup_cons.1 (List.nodup_append.1 distinct).2.1).1
  exact fun again => fresh (List.mem_append_right s.comments again)

/-- In front of a site nothing declares it, whatever casts are written there. -/
theorem Tracked.free {table : PrinterTable} {s : Site} (tracked : s.Tracked table)
    (plain : ∀ t ∈ s.tokens, t.kind ≠ .comment) {casts : List (Argument × Text)}
    (known : ∀ cast ∈ casts, CType.Plain cast.2) :
    (Mention.previousOf none (recastBefore o casts s.before s.name)).any Mention.declares = false := by
  have solid : ∀ t ∈ s.before, t.kind ≠ .comment := fun t member => plain t (by simp [tokens, member])
  have free := any_declares_eq_false_iff.2 ⟨tracked.member, tracked.declared⟩
  rw [Token.code_of_plain solid] at free
  rw [Mention.previousOf, Token.code_of_plain (Castable.recastBefore_plain known solid),
    Option.or_none]
  exact Castable.recastBefore_declares o casts s.name free

end Site

namespace Mention

/-- What has become of a call when casts are written into all calls but those that begin with the
given names: with its own casts a call is done, without them it is still the same. -/
structure Recasting (Done : Call → Call → Prop) (tokens names : List Token) (c c' : Call) : Prop where
  found : .call c ∈ scan .standard none tokens
  name : c'.name = c.name
  same : c.name ∈ names → c' = c
  done : c.name ∉ names → Done c c'

variable {source : Source} {o : Nat} {tokens : List Token}

theorem site_of_scan {c : Call} (found : .call c ∈ scan .standard none tokens) :
    ∃ s ∈ Site.ofTokens .standard tokens, s.mention = .call c := by
  have call : c ∈ calls (ofTokens .standard tokens) := List.mem_filterMap.2 ⟨_, found, rfl⟩
  rw [calls_eq] at call
  obtain ⟨s, listed, mention⟩ := List.mem_filterMap.1 call
  refine ⟨s, listed, ?_⟩
  generalize s.mention = m at mention
  cases m <;> simp_all [call?]

theorem site_name {s : Site} {c : Call} (mention : s.mention = .call c) : c.name = s.name := by
  obtain ⟨_, _, _, _, _, rfl⟩ := Site.mention_eq_call_iff.1 mention
  rfl

theorem call_of_scan {s : Site} (listed : s ∈ Site.ofTokens .standard tokens) {c : Call}
    (mention : s.mention = .call c) : .call c ∈ scan .standard none tokens := by
  have call : c ∈ calls (ofTokens .standard tokens) := by
    rw [calls_eq]
    exact List.mem_filterMap.2 ⟨s, listed, by rw [mention]; rfl⟩
  obtain ⟨m, member, same⟩ := List.mem_filterMap.1 call
  cases m <;> simp_all [call?, ofTokens]

theorem mention_of_name (distinct : tokens.Nodup) {s : Site}
    (listed : s ∈ Site.ofTokens .standard tokens) {c : Call}
    (found : .call c ∈ scan .standard none tokens) (here : c.name = s.name) :
    s.mention = .call c := by
  obtain ⟨s', listed', call⟩ := site_of_scan found
  have same : s'.name = s.name := (site_name call).symm.trans here
  rwa [List.inj_on_of_nodup_map (Site.names_nodup distinct) listed' listed same] at call

namespace Recasting

variable {Done : Call → Call → Prop} {names front back : List Token} {name : Token} {p : Patch}
  {c c' c'' : Call}

/-- What is written into one call does not matter to a call that begins elsewhere. -/
theorem other (recasting : Recasting Done tokens (name :: names) c c') (away : c.name ≠ name) :
    Recasting Done tokens names c c' where
  found := recasting.found
  name := recasting.name
  same inside := recasting.same (List.mem_cons_of_mem _ inside)
  done outside := recasting.done (by simp [away, outside])

/-- A call that stands around another one has its own casts already. -/
theorem around (recasting : Recasting Done tokens (name :: names) c c')
    (outside : c.name ∉ name :: names) (patched : Call.Patched p c' c'')
    (swap : Done c c' → Done c c'') : Recasting Done tokens names c c'' where
  found := recasting.found
  name := patched.name.trans recasting.name
  same inside := absurd (List.mem_cons_of_mem _ inside) outside
  done _ := swap (recasting.done outside)

/-- What becomes of a call when one call gets its casts. -/
theorem step (own own' : Call) (recasting : Recasting Done tokens (own.name :: names) c c')
    (fresh : own.name ∉ names) (ahead : ∀ name ∈ own.name :: names, name ∉ front)
    (behind : own.name ∉ p.old.tail ++ back) (same : own'.name = own.name) (done : Done own own')
    (swap : ∀ c c' c'', Done c c' → Call.Patched p c' c'' → Done c c'')
    (stepped : p.Step front back own own' c' c'') : Recasting Done tokens names c c'' := by
  cases stepped with
  | own =>
      obtain rfl : c' = c := recasting.same (by simp [recasting.name])
      exact ⟨recasting.found, same, fun inside => absurd inside fresh, fun _ => done⟩
  | around begins patched =>
      refine recasting.around (fun inside => ?_) patched fun made => swap c c' c'' made patched
      exact ahead c.name inside (recasting.name ▸ begins)
  | apart begins =>
      refine recasting.other fun here => behind ?_
      rwa [recasting.name, here] at begins

end Recasting

/-- One call more gets its casts. -/
theorem recasting_step {Done : Call → Call → Prop} {done todo : List Site} {s : Site}
    (sites : Site.ofTokens .standard tokens = done ++ s :: todo)
    (plain : ∀ t ∈ tokens, t.kind ≠ .comment) (distinct : tokens.Nodup)
    (within : ∀ t ∈ tokens, t.span.start.offset < o)
    (own : ∀ c, .call c ∈ scan .standard none tokens → Done c (c.recast o source))
    (swap : ∀ s ∈ Site.ofTokens .standard tokens, ∀ slots slots' p,
      (∃ after, s.Lists slots after) → Slot.Proper slots → s.CastPatch source o slots slots' p →
        ∀ c c' c'', Done c c' → Call.Patched p c' c'' → Done c c'')
    (before : List.Forall₂
      (Places.same.Mentions (Recasting Done tokens ((s :: todo).map (·.name))))
      (scan .standard none tokens)
      (scan .standard none (recastTokens o (done.flatMap (Site.casts source)) tokens))) :
    List.Forall₂ (Places.same.Mentions (Recasting Done tokens (todo.map (·.name))))
      (scan .standard none tokens)
      (scan .standard none (recastTokens o ((done ++ [s]).flatMap (Site.casts source)) tokens)) := by
  have listed : s ∈ Site.ofTokens .standard tokens := by simp [sites]
  obtain ⟨whole, tracked⟩ := Site.mem_ofTokens_iff.1 listed
  rw [List.flatMap_append, List.flatMap_singleton]
  cases mention : s.mention.call? with
  | none =>
      -- nothing is written, and none of the calls found is named here
      have uncast : s.casts source = [] := by simp [Site.casts, mention]
      rw [uncast, List.append_nil]
      refine Places.mentions_imp (fun c c' recasting => recasting.other fun here => ?_) before
      have call := mention_of_name distinct listed recasting.found here
      rw [call?_eq_some_iff.2 call] at mention
      cases mention
  | some c =>
      have call := call?_eq_some_iff.1 mention
      obtain ⟨slots, after, later, list, proper, rfl⟩ := Site.mention_eq_call_iff.1 call
      have lists : s.Lists slots after := ⟨later, list⟩
      obtain ⟨inner, written, _⟩ := list.closing_eq s.opening
      have block : tokens = s.before ++ (s.written slots ++ after) := whole ▸ lists.tokens_eq
      obtain ⟨p, slots', patch⟩ := Site.exists_castPatch tracked source o list proper
        (fun t member => plain t (by simp [block, Site.written, member]))
        (distinct.sublist (block ▸ ((s.slots_sublist slots).trans
          (List.sublist_append_left _ _)).trans (List.sublist_append_right _ _)))
      obtain ⟨old, new⟩ := Site.recast_block lists proper written patch
        (tracked.comments_eq_nil (whole ▸ plain)) (whole ▸ distinct)
        (Site.earlier_outside sites source plain distinct lists written)
      rw [whole] at old new
      rw [old] at before
      rw [new]
      have free := tracked.free (o := o) (whole ▸ plain) (Site.earlier_plain sites source)
      have step := scan_step .standard patch.between (patch.name'.trans patch.name.symm)
        (by rw [patch.name]; exact tracked.listed) proper patch.proper patch.mentions _
        (Castable.recastBehind o (done.flatMap (Site.casts source)) (Slot.closing s.opening slots)
          after) free
      rw [patch.name, patch.opening, patch.arguments, ← patch.between.closing, patch.opening] at step
      have names : ((Site.ofTokens .standard tokens).map (·.name)).Nodup :=
        Site.names_nodup distinct
      rw [sites, List.map_append, List.map_cons] at names
      have found := call_of_scan listed call
      refine Places.mentions_trans (Places.same_composes _) (fun c c' c'' recasting stepped => ?_)
        before step
      refine recasting.step (s.call slots) ((s.call slots).recast o source) ?_ ?_ ?_ rfl
        (own _ found) (swap s listed slots slots' p ⟨after, lists⟩ proper patch) stepped
      · exact (List.nodup_cons.1 (List.nodup_append.1 names).2.1).1
      · intro name (member : name ∈ (s :: todo).map (·.name)) ahead
        obtain ⟨s', later, rfl⟩ := List.mem_map.1 member
        have listed' : s' ∈ Site.ofTokens .standard tokens :=
          sites ▸ List.mem_append_right _ later
        refine Site.name_not_mem_before sites distinct later
          (Castable.mem_of_recastBefore (within _ ?_) ahead)
        rw [← (Site.mem_ofTokens_iff.1 listed').1]
        simp [Site.tokens]
      · have fresh := Site.name_not_mem_behind lists (whole ▸ distinct)
        rw [patch.between.old, List.tail_cons, patch.opening]
        intro again
        refine fresh ?_
        rcases List.mem_append.1 again with again | again
        · exact List.mem_append_left _ again
        · refine List.mem_append_right (s.opening :: Slot.written slots)
            (Castable.mem_of_recastBehind (within _ ?_) again)
          simp [← whole, Site.tokens]

/-- Writing the casts of all calls into a file changes no mention but what has to become of the
calls: whatever holds of a call with its own casts, and is kept when another call gets its casts in an
argument of it, holds of all calls in the end. -/
theorem scan_recast (plain : ∀ t ∈ tokens, t.kind ≠ .comment) (distinct : tokens.Nodup)
    (within : ∀ t ∈ tokens, t.span.start.offset < o) {Done : Call → Call → Prop}
    (own : ∀ c, .call c ∈ scan .standard none tokens → Done c (c.recast o source))
    (swap : ∀ s ∈ Site.ofTokens .standard tokens, ∀ slots slots' p,
      (∃ after, s.Lists slots after) → Slot.Proper slots → s.CastPatch source o slots slots' p →
        ∀ c c' c'', Done c c' → Call.Patched p c' c'' → Done c c'') :
    List.Forall₂ (Places.same.Mentions Done) (scan .standard none tokens)
      (scan .standard none (recastTokens o ((calls (scan .standard none tokens)).flatMap
        fun c => (c.check source).castArguments) tokens)) := by
  have steps (done todo : List Site) (sites : Site.ofTokens .standard tokens = done ++ todo) :
      List.Forall₂ (Places.same.Mentions (Recasting Done tokens (todo.map (·.name))))
        (scan .standard none tokens)
        (scan .standard none (recastTokens o (done.flatMap (Site.casts source)) tokens)) := by
    induction done using List.reverseRecOn generalizing todo with
    | nil =>
        rw [List.flatMap_nil, Castable.recastTokens_nil]
        refine Places.mentions_refl fun c found => ⟨found, rfl, fun _ => rfl, fun outside => ?_⟩
        obtain ⟨s, listed, mention⟩ := site_of_scan found
        rw [sites, List.nil_append] at listed
        rw [site_name mention] at outside
        exact absurd (List.mem_map_of_mem listed) outside
    | append_singleton done s ih =>
        rw [List.append_assoc, List.singleton_append] at sites
        exact recasting_step sites plain distinct within own swap (ih (s :: todo) sites)
  have casts : (Site.ofTokens .standard tokens).flatMap (Site.casts source) =
      (calls (scan .standard none tokens)).flatMap fun c => (c.check source).castArguments := by
    have same := calls_eq .standard tokens
    unfold ofTokens at same
    rw [same, List.filterMap_eq_flatMap_toList, List.flatMap_assoc]
    refine List.flatMap_congr fun s _ => ?_
    unfold Site.casts
    cases s.mention.call? <;> simp
  have whole := steps (Site.ofTokens .standard tokens) [] (by simp)
  rw [casts] at whole
  exact Places.mentions_imp (fun c c' recasting => recasting.done (by simp)) whole

end Mention

end FormatLint
