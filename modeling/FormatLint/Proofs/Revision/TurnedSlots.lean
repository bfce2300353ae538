import FormatLint.Proofs.Call.Step
import FormatLint.Proofs.Cast.OpenBrackets
import FormatLint.Proofs.Revision.SafeWords
import FormatLint.Proofs.Revision.Turned

/-!
Argument lists in which calls are turned. Every argument stays in one slot, whether the calls in it
are turned (`TurnedCall.Sound.turned_listed`) or the call itself is
(`TurnedCall.Sound.safe_listed`), and the brackets of the list stay what they are:
`TurnedCall.Sound.safe_brackets`.
-/

namespace FormatLint

/-- The word neither groups anything nor ends a statement, and names no printer. -/
structure Word.Idle (word : Word) : Prop where
  kind : word.1 ∈ [.ident, .other, .string, .punct, .comma]
  statement : word ≠ (.punct, Text.ofString ";")
  bracket : Cast.closer? word.2 = none ∧ word.2 ∉ Cast.closers
  unlisted : word.1 = .ident → PrinterTable.standard.find? word.2 = none

namespace Word

theorem idle_comma : Idle comma := ⟨by decide, by decide, by decide, nofun⟩

theorem idle_openBrace : Idle openBrace := ⟨by decide, by decide, by decide, nofun⟩

theorem idle_closeBrace : Idle closeBrace := ⟨by decide, by decide, by decide, nofun⟩

theorem idle_ofNat (n : Nat) : Idle (.other, Text.ofNat n) := by
  refine ⟨by simp, by simp, Head.noBracket fun g first bracket => ?_, nofun⟩
  have marks : ∀ g ∈ Text.ofString "()[]", Head.isAsciiDigit g = false := by decide
  have digit := ofNat_digits n g (List.mem_of_mem_head? first)
  rw [marks g bracket] at digit
  cases digit

theorem idle_tag (family : Family) : Idle (.ident, family.tag) := by
  have name := family.tag_name.1
  refine ⟨by simp, by simp, Head.noBracket fun g first => ?_, fun _ => ?_⟩
  · exact Head.bracket_start (name.2 g (List.mem_of_mem_head? first))
  · cases family <;> decide

end Word

theorem Quoted.idle {segment : Text} {words : List Word} (quoted : Quoted segment words) :
    ∀ word ∈ words, word.1 = .string ∧ word.Idle := by
  obtain ⟨bodies, _, _, rfl⟩ := quoted
  intro word member
  obtain ⟨body, _, rfl⟩ := List.mem_map.1 member
  refine ⟨rfl, by simp, by simp, Head.noBracket fun g first => ?_, nofun⟩
  rw [← Option.some.inj first]
  decide

namespace Word.Idle

theorem beyond {word : Word} (idle : word.Idle) (o : Nat) : (Token.beyond o word).word.Idle := idle

variable {t : Token}

theorem isBracket (idle : t.word.Idle) : t.isBracket = false :=
  Token.isBracket_eq_false_iff.2 idle.bracket

theorem bracketed (idle : t.word.Idle) : t.Bracketed := by
  have kind := idle.kind
  refine ⟨fun opens => ?_, fun closes => ?_, fun _ => idle.isBracket⟩
  · rw [Token.word, opens] at kind
    simp at kind
  · have closer : Text.ofString ")" ∈ Cast.closers := by decide
    rw [← closes] at closer
    exact absurd closer idle.bracket.2

/-- Words of these kinds fill a slot, if there are no commas among them. -/
theorem fills {tokens : List Token} (idle : ∀ t ∈ tokens, t.word.Idle ∧ t.kind ≠ .comma) :
    Slot.Fills 0 tokens := by
  induction tokens with
  | nil => exact Slot.fills_nil.2 rfl
  | cons t tokens ih =>
      obtain ⟨⟨here, inner⟩, later⟩ := List.forall_mem_cons.1 idle
      have kind := here.kind
      have statement := here.statement
      simp only [Token.word, List.mem_cons, List.not_mem_nil, or_false] at kind
      refine Slot.fills_cons.2 ⟨?_, fun _ => ⟨inner, ?_⟩, ?_⟩
      · rcases kind with kind | kind | kind | kind | kind <;>
          simp_all [Slot.endsStatement, Token.isPunct, Token.word]
      · rcases kind with kind | kind | kind | kind | kind <;> simp [kind]
      · rcases kind with kind | kind | kind | kind | kind <;>
          simpa [Slot.depthAfter, kind] using ih later

end Word.Idle

/-- Words of these kinds mention nothing. -/
theorem Mention.scan_idle {tokens : List Token} (idle : ∀ t ∈ tokens, t.word.Idle) :
    scan .standard none tokens = [] := by
  have scanned : scan .standard none (tokens ++ []) = _ :=
    scan_unlisted (fun t member => (idle t member).unlisted) none []
  rwa [List.append_nil] at scanned

namespace Slot

/-- Tokens that close what they open may be left out in front. -/
theorem Fills.behind {d : Nat} {front back : List Token} (inner : Fills 0 front)
    (fills : Fills d (front ++ back)) : Fills d back := by
  have closed := inner.closed
  have whole := fills.closed
  rw [Token.depth_append] at whole
  refine ⟨by omega, ?_⟩
  rintro before t after rfl
  have inside := fills.inside (front ++ before) t after (by simp)
  rw [Token.depth_append] at inside
  exact ⟨inside.1, by omega, fun zero => inside.2.2 (by omega)⟩

theorem Listed.replace {d : Nat} {slots slots' : List Slot} (listed : Listed d slots)
    (same : List.Forall₂ (fun s s' => s'.stop = s.stop ∧
      ∀ d, Fills d s.tokens → Fills d s'.tokens) slots slots') : Listed d slots' := by
  induction listed generalizing slots' with
  | last fills closes =>
      obtain _ | ⟨⟨stop, filled⟩, _ | _⟩ := same
      exact .last (filled _ fills) (stop ▸ closes)
  | next fills comma _ ih =>
      obtain _ | ⟨⟨stop, filled⟩, later⟩ := same
      exact .next (filled _ fills) (stop ▸ comma) (ih later)

theorem closing_congr {slots slots' : List Slot} (opening : Token)
    (same : slots'.map (·.stop) = slots.map (·.stop)) :
    closing opening slots' = closing opening slots := by
  rw [closing, closing, ← List.getLast?_map, same, List.getLast?_map]

/-- The brackets of a list are those in its slots, and the parenthesis that closes it. -/
theorem Listed.brackets {d : Nat} {slots : List Slot} (listed : Listed d slots)
    (commas : ∀ s ∈ slots, s.stop.kind = .comma → s.stop.isBracket = false) (opening : Token) :
    (written slots).filter Token.isBracket =
      slots.flatMap (·.tokens.filter Token.isBracket) ++
        [closing opening slots].filter Token.isBracket := by
  induction listed with
  | last => simp [written, closing]
  | @next d s later _ comma listed ih =>
      have last : closing opening (s :: later) = closing opening later := by
        cases listed <;> simp [closing, List.getLast?_cons]
      have rest := ih fun other member => commas other (List.mem_cons_of_mem _ member)
      have plain := commas s List.mem_cons_self comma
      rw [written_cons, List.filter_append, List.filter_cons_of_neg (by simp [plain]), rest, last,
        List.flatMap_cons, List.append_assoc]

end Slot

/-- The slot of the argument with what its tokens become. -/
def TurnedArgument.turned (a : TurnedArgument) : Slot := ⟨a.tokens, a.stop⟩

namespace TaggedArgument

/-- The slots of a safe call from the segment in front of the arguments on. -/
def safeSlots (o : Nat) (closing : Token) (front : List Token) : List TaggedArgument → List Slot
  | [] => [⟨front ++ [Token.beyond o Word.closeBrace], closing⟩]
  | a :: later =>
    ⟨front, Token.beyond o Word.comma⟩ ::
      ⟨Token.beyond o Word.openBrace :: a.tokens, Token.beyond o Word.comma⟩ ::
        ⟨[Token.beyond o (.ident, a.tag), Token.beyond o Word.closeBrace],
          Token.beyond o Word.comma⟩ :: safeSlots o closing (a.segment.map (Token.beyond o)) later

variable {o : Nat} {closing : Token} {front : List Token}

theorem safeSlots_written (o : Nat) (closing : Token) (front : List Token)
    (trailing : List TaggedArgument) : Slot.written (safeSlots o closing front trailing) =
      front ++ (trailing.flatMap (written o) ++ [Token.beyond o Word.closeBrace, closing]) := by
  induction trailing generalizing front with
  | nil => simp [safeSlots, Slot.written]
  | cons a later ih =>
      rw [safeSlots, Slot.written_cons, Slot.written_cons, Slot.written_cons, ih]
      simp [written, opening, TaggedArgument.closing]

/-- The tags and segments stand in slots of their own. -/
theorem safeSlots_listed {trailing : List TaggedArgument} (closes : closing.kind = .closeParen)
    (filled : ∀ a ∈ trailing, Slot.Fills 0 a.tokens)
    (words : ∀ a ∈ trailing, (Word.Idle (.ident, a.tag)) ∧
      ∀ word ∈ a.segment, word.1 = .string ∧ word.Idle)
    (idle : ∀ t ∈ front, t.word.Idle ∧ t.kind ≠ .comma) :
    Slot.Listed 0 (safeSlots o closing front trailing) := by
  have brace : (Token.beyond o Word.closeBrace).word.Idle := Word.idle_closeBrace
  induction trailing generalizing front with
  | nil =>
      refine .last (Word.Idle.fills fun t member => ?_) closes
      rcases List.mem_append.1 member with member | member
      · exact idle t member
      · rw [List.mem_singleton.1 member]
        exact ⟨brace, nofun⟩
  | cons a later ih =>
      obtain ⟨⟨tag, segment⟩, others⟩ := List.forall_mem_cons.1 words
      obtain ⟨here, behind⟩ := List.forall_mem_cons.1 filled
      refine .next (Word.Idle.fills idle) rfl (.next ?_ rfl (.next ?_ rfl (ih behind others ?_)))
      · have opens : Slot.Fills 0 [Token.beyond o Word.openBrace] := Word.Idle.fills fun t member => by
          rw [List.mem_singleton.1 member]
          exact ⟨Word.idle_openBrace, nofun⟩
        exact opens.append here
      · refine Word.Idle.fills fun t member => ?_
        rcases List.mem_cons.1 member with rfl | member
        · exact ⟨tag, nofun⟩
        · rw [List.mem_singleton.1 member]
          exact ⟨brace, nofun⟩
      · intro t member
        obtain ⟨word, inside, rfl⟩ := List.mem_map.1 member
        obtain ⟨kind, idle⟩ := segment word inside
        exact ⟨idle, by simp [Token.beyond, kind]⟩

/-- What is read in the slots is what is read in the arguments, if nothing is read in the words around
them. -/
theorem safeSlots_flatMap {β : Type} (f : List Token → List β) {trailing : List TaggedArgument}
    (words : ∀ a ∈ trailing, (Word.Idle (.ident, a.tag)) ∧
      ∀ word ∈ a.segment, word.1 = .string ∧ word.Idle)
    (idle : ∀ t ∈ front, t.word.Idle) (silent : ∀ tokens, (∀ t ∈ tokens, t.word.Idle) → f tokens = [])
    (inner : ∀ a ∈ trailing, f (Token.beyond o Word.openBrace :: a.tokens) = f a.tokens) :
    (safeSlots o closing front trailing).flatMap (fun s => f s.tokens) =
      trailing.flatMap fun a => f a.tokens := by
  have brace : (Token.beyond o Word.closeBrace).word.Idle := Word.idle_closeBrace
  induction trailing generalizing front with
  | nil =>
      rw [safeSlots, List.flatMap_singleton]
      refine silent _ fun t member => ?_
      rcases List.mem_append.1 member with member | member
      · exact idle t member
      · exact List.mem_singleton.1 member ▸ brace
  | cons a later ih =>
      obtain ⟨⟨tag, segment⟩, others⟩ := List.forall_mem_cons.1 words
      obtain ⟨here, behind⟩ := List.forall_mem_cons.1 inner
      have tagged : f [Token.beyond o (.ident, a.tag), Token.beyond o Word.closeBrace] = [] := by
        refine silent _ fun t member => ?_
        rcases List.mem_cons.1 member with rfl | member
        · exact tag
        · exact List.mem_singleton.1 member ▸ brace
      rw [safeSlots, List.flatMap_cons, List.flatMap_cons, List.flatMap_cons, List.flatMap_cons,
        silent front idle, tagged, here, ih others ?_ behind]
      · simp
      · intro t member
        obtain ⟨word, inside, rfl⟩ := List.mem_map.1 member
        exact (segment word inside).2

theorem safeSlots_stop {trailing : List TaggedArgument} :
    ∀ s ∈ safeSlots o closing front trailing,
      s.stop = closing ∨ s.stop = Token.beyond o Word.comma := by
  induction trailing generalizing front with
  | nil => simp [safeSlots]
  | cons a later ih =>
      intro s member
      simp only [safeSlots, List.mem_cons] at member
      rcases member with rfl | rfl | rfl | member
      · exact .inr rfl
      · exact .inr rfl
      · exact .inr rfl
      · exact ih s member

end TaggedArgument

namespace TurnedCall

def values (c : TurnedCall) : List TurnedArgument :=
  c.fixed ++ c.trailing.map (·.toTurnedArgument)

/-- The slots of the call when the calls in them are turned. -/
def turnedSlots (c : TurnedCall) : List Slot :=
  c.fixed.map (·.turned) ++ c.literal :: c.trailing.map (·.turned)

/-- The slots of the safe call. -/
def safeSlots (o : Nat) (c : TurnedCall) : List Slot :=
  c.fixed.map (·.turned) ++
    ⟨[Token.beyond o (.other, Text.ofNat (c.trailing.length + 1))], Token.beyond o Word.comma⟩ ::
      TaggedArgument.safeSlots o c.call.closing
        (Token.beyond o Word.openBrace :: c.segment.map (Token.beyond o)) c.trailing

variable {o : Nat} {verdicts : List Verdict} {c : TurnedCall}

theorem fixed_written (fixed : List TurnedArgument) :
    Slot.written (fixed.map (·.turned)) = fixed.flatMap TurnedArgument.written := by
  rw [Slot.written, List.flatMap_map]
  rfl

theorem safeSlots_written (o : Nat) (c : TurnedCall) : Slot.written (c.safeSlots o) = c.list o := by
  rw [safeSlots, Slot.written_append, fixed_written, Slot.written_cons,
    TaggedArgument.safeSlots_written, list, lead]
  simp

theorem safeSlots_closing (o : Nat) (c : TurnedCall) (opening : Token) :
    Slot.closing opening (c.safeSlots o) = c.call.closing := by
  rw [Slot.closing, ← Slot.written_getLast?, safeSlots_written, list, List.getLast?_append,
    List.getLast?_append, List.getLast?_append]
  rfl

/-- The slots before and after the calls in them are turned. -/
theorem forall₂_slots {R : Slot → Slot → Prop} (values : ∀ a ∈ c.values, R a.slot a.turned)
    (literal : R c.literal c.literal) : List.Forall₂ R c.slots c.turnedSlots := by
  have fixed : List.Forall₂ R (c.fixed.map (·.slot)) (c.fixed.map (·.turned)) := by
    rw [List.forall₂_map_left_iff, List.forall₂_map_right_iff, List.forall₂_same]
    exact fun a member => values a (List.mem_append_left _ member)
  have trailing : List.Forall₂ R (c.trailing.map (·.slot)) (c.trailing.map (·.turned)) := by
    rw [List.forall₂_map_left_iff, List.forall₂_map_right_iff, List.forall₂_same]
    exact fun a member => values _ (List.mem_append_right _ (List.mem_map_of_mem member))
  exact List.rel_append fixed (.cons literal trailing)

theorem forall_values {P : TurnedArgument → Prop} (fixed : ∀ a ∈ c.fixed, P a)
    (trailing : ∀ a ∈ c.trailing, P a.toTurnedArgument) : ∀ a ∈ c.values, P a := by
  intro a member
  rcases List.mem_append.1 member with member | member
  · exact fixed a member
  · obtain ⟨b, listed, rfl⟩ := List.mem_map.1 member
    exact trailing b listed

theorem slot_mem {a : TurnedArgument} (member : a ∈ c.values) : a.slot ∈ c.slots := by
  rcases List.mem_append.1 member with member | member
  · exact List.mem_append_left _ (List.mem_map_of_mem member)
  · obtain ⟨b, listed, rfl⟩ := List.mem_map.1 member
    exact List.mem_append_right _ (List.mem_cons_of_mem _ (List.mem_map_of_mem (f := fun a =>
      TurnedArgument.slot a.toTurnedArgument) listed))

theorem value_mem_old {a : TurnedArgument} (member : a ∈ c.values) :
    a.argument.code ⊆ c.old ∧ a.stop ∈ c.old := by
  refine ⟨fun t inside => ?_, ?_⟩
  · exact List.mem_cons_of_mem _ (List.mem_cons_of_mem _
      (Slot.subset_written (slot_mem member) inside))
  · exact List.mem_cons_of_mem _ (List.mem_cons_of_mem _ (Slot.stop_mem_written (slot_mem member)))

theorem mem_turnedSlots {s : Slot} (member : s ∈ c.turnedSlots) :
    (∃ a ∈ c.values, s = a.turned) ∨ s = c.literal := by
  rcases List.mem_append.1 member with member | member
  · obtain ⟨a, listed, rfl⟩ := List.mem_map.1 member
    exact .inl ⟨a, List.mem_append_left _ listed, rfl⟩
  · rcases List.mem_cons.1 member with rfl | member
    · exact .inr rfl
    · obtain ⟨a, listed, rfl⟩ := List.mem_map.1 member
      exact .inl ⟨_, List.mem_append_right _ (List.mem_map_of_mem listed), rfl⟩

theorem literal_mem_old (c : TurnedCall) : c.literal.tokens ⊆ c.old ∧ c.literal.stop ∈ c.old := by
  have listed : c.literal ∈ c.slots := List.mem_append_right _ List.mem_cons_self
  refine ⟨fun t inside => ?_, ?_⟩
  · exact List.mem_cons_of_mem _ (List.mem_cons_of_mem _ (Slot.subset_written listed inside))
  · exact List.mem_cons_of_mem _ (List.mem_cons_of_mem _ (Slot.stop_mem_written listed))

theorem turned_stops (c : TurnedCall) : c.turnedSlots.map (·.stop) = c.slots.map (·.stop) :=
  map_eq_of_forall₂ (R := fun s s' : Slot => s'.stop = s.stop) (fun _ _ same => same)
    (forall₂_slots (fun _ _ => rfl) rfl)

namespace Sound

theorem closes (sound : c.Sound verdicts) : c.call.closing.kind = .closeParen := by
  obtain ⟨_, last, whole, closes, _⟩ := sound.slots.written_eq
  obtain ⟨_, same, _⟩ := sound.slots.closing_eq c.call.opening
  rw [sound.closing, whole] at same
  rwa [← List.singleton_inj.1 (List.append_inj' same rfl).2]

theorem idle (sound : c.Sound verdicts) : (∀ word ∈ c.segment, word.1 = .string ∧ word.Idle) ∧
    ∀ a ∈ c.trailing, (Word.Idle (.ident, a.tag)) ∧
      ∀ word ∈ a.segment, word.1 = .string ∧ word.Idle := by
  have quoted : ∀ words ∈ c.segment :: c.trailing.map (·.segment),
      ∀ word ∈ words, word.1 = .string ∧ word.Idle := by
    intro words member
    obtain ⟨segment, _, quoted⟩ := forall₂_exists sound.segments member
    exact quoted.idle
  refine ⟨quoted _ List.mem_cons_self, fun a member => ⟨?_, ?_⟩⟩
  · have tag : some a.tag ∈ c.trailing.map (some ·.tag) :=
      List.mem_map_of_mem (f := fun a : TaggedArgument => some a.tag) member
    rw [sound.tags] at tag
    obtain ⟨d, _, known⟩ := List.mem_map.1 tag
    obtain ⟨family, _, same⟩ := Option.map_eq_some_iff.1 known
    rw [← same]
    exact Word.idle_tag family
  · exact quoted _ (List.mem_cons_of_mem _ (List.mem_map_of_mem member))

theorem first_idle (sound : c.Sound verdicts) :
    ∀ t ∈ Token.beyond o Word.openBrace :: c.segment.map (Token.beyond o),
      t.word.Idle ∧ t.kind ≠ .comma := by
  intro t member
  rcases List.mem_cons.1 member with rfl | member
  · exact ⟨Word.idle_openBrace, nofun⟩
  · obtain ⟨word, inside, rfl⟩ := List.mem_map.1 member
    obtain ⟨kind, idle⟩ := sound.idle.1 word inside
    exact ⟨idle, by simp [Token.beyond, kind]⟩

theorem mem_list (sound : c.Sound verdicts) {t : Token} (member : t ∈ c.list o) :
    (∃ a ∈ c.values, t ∈ a.tokens) ∨ (t ∈ c.old ∧ t.kind ≠ .ident) ∨
      ∃ word, Word.Idle word ∧ t = Token.beyond o word := by
  have added {words : List Word} (idle : ∀ word ∈ words, word.Idle) {t : Token}
      (inside : t ∈ words.map (Token.beyond o)) : ∃ word, Word.Idle word ∧ t = Token.beyond o word := by
    obtain ⟨word, listed, rfl⟩ := List.mem_map.1 inside
    exact ⟨word, idle word listed, rfl⟩
  have literal {words : List Word} (quoted : ∀ word ∈ words, word.1 = .string ∧ word.Idle) :
      ∀ word ∈ words, word.Idle := fun word inside => (quoted word inside).2
  obtain ⟨first, behind⟩ := sound.idle
  rw [list, List.mem_append, List.mem_append, List.mem_append] at member
  rcases member with fixed | lead | trailing | ends
  · obtain ⟨a, listed, inside⟩ := List.mem_flatMap.1 fixed
    have value : a ∈ c.values := List.mem_append_left _ listed
    rcases List.mem_append.1 inside with inside | stop
    · exact .inl ⟨a, value, inside⟩
    · rw [List.mem_singleton.1 stop]
      exact .inr (.inl ⟨(value_mem_old value).2, by simp [sound.stops a listed]⟩)
  · refine .inr (.inr (added ?_ lead))
    simp only [List.forall_mem_append, List.forall_mem_cons]
    exact ⟨⟨Word.idle_ofNat _, Word.idle_comma, Word.idle_openBrace, List.forall_mem_nil _⟩,
      literal first⟩
  · obtain ⟨a, listed, inside⟩ := List.mem_flatMap.1 trailing
    obtain ⟨tag, segment⟩ := behind a listed
    rw [TaggedArgument.written, List.mem_append, List.mem_append] at inside
    rcases inside with (opening | inside) | closing
    · refine .inr (.inr (added ?_ opening))
      simp only [List.forall_mem_cons]
      exact ⟨Word.idle_comma, Word.idle_openBrace, List.forall_mem_nil _⟩
    · exact .inl ⟨_, List.mem_append_right _ (List.mem_map_of_mem listed), inside⟩
    · refine .inr (.inr (added ?_ closing))
      simp only [List.forall_mem_append, List.forall_mem_cons]
      exact ⟨⟨Word.idle_comma, tag, Word.idle_closeBrace, Word.idle_comma, List.forall_mem_nil _⟩,
        literal segment⟩
  · rcases List.mem_cons.1 ends with rfl | closing
    · exact .inr (.inr ⟨_, Word.idle_closeBrace, rfl⟩)
    · obtain rfl := List.mem_singleton.1 closing
      obtain ⟨_, whole, _⟩ := sound.slots.closing_eq c.call.opening
      rw [sound.closing] at whole
      exact .inr (.inl ⟨by simp [old, whole], by simp [sound.closes]⟩)

/-- An argument list with turned calls in it has the same slots. -/
theorem turned_listed (sound : c.Sound verdicts)
    (filled : ∀ a ∈ c.values, ∀ d, Slot.Fills d a.argument.code → Slot.Fills d a.tokens) :
    Slot.Listed 0 c.turnedSlots :=
  sound.slots.replace (forall₂_slots (fun a member => ⟨rfl, filled a member⟩) ⟨rfl, fun _ => id⟩)

theorem turned_closing (sound : c.Sound verdicts) :
    Slot.closing c.call.opening c.turnedSlots = c.call.closing := by
  rw [Slot.closing_congr _ c.turned_stops, sound.closing]

/-- The list of the safe call is an argument list. -/
theorem safe_listed (sound : c.Sound verdicts)
    (filled : ∀ a ∈ c.values, ∀ d, Slot.Fills d a.argument.code → Slot.Fills d a.tokens) :
    Slot.Listed 0 (c.safeSlots o) := by
  have fills : ∀ a ∈ c.values, Slot.Fills 0 a.tokens := fun a member =>
    filled a member 0 (sound.slots.fills a.slot (slot_mem member))
  have trailing : ∀ a ∈ c.trailing, Slot.Fills 0 a.tokens := fun a member =>
    fills _ (List.mem_append_right _ (List.mem_map_of_mem member))
  have count : Slot.Listed 0 (⟨[Token.beyond o (.other, Text.ofNat (c.trailing.length + 1))],
      Token.beyond o Word.comma⟩ :: TaggedArgument.safeSlots o c.call.closing
        (Token.beyond o Word.openBrace :: c.segment.map (Token.beyond o)) c.trailing) := by
    refine .next (Word.Idle.fills fun t member => ?_) rfl
      (TaggedArgument.safeSlots_listed sound.closes trailing sound.idle.2 sound.first_idle)
    rw [List.mem_singleton.1 member]
    exact ⟨Word.idle_ofNat _, nofun⟩
  have front : ∀ a ∈ c.fixed, Slot.Fills 0 a.tokens ∧ a.stop.kind = .comma := fun a member =>
    ⟨fills a (List.mem_append_left _ member), sound.stops a member⟩
  rw [TurnedCall.safeSlots]
  generalize c.fixed = fixed at front
  induction fixed with
  | nil => exact count
  | cons a fixed ih =>
      obtain ⟨⟨here, comma⟩, later⟩ := List.forall_mem_cons.1 front
      exact .next here comma (ih later)

/-- What is read in the slots of the safe call is what is read in those of the call, if nothing is read
in literals and in the words around the arguments. -/
theorem safe_flatMap (sound : c.Sound verdicts) {β : Type} (f : List Token → List β)
    (silent : ∀ tokens, (∀ t ∈ tokens, t.word.Idle) → f tokens = [])
    (inner : ∀ a ∈ c.trailing, f (Token.beyond o Word.openBrace :: a.tokens) = f a.tokens)
    (literal : f c.literal.tokens = []) :
    (c.safeSlots o).flatMap (fun s => f s.tokens) =
      c.turnedSlots.flatMap fun s => f s.tokens := by
  have count : f [Token.beyond o (.other, Text.ofNat (c.trailing.length + 1))] = [] := by
    refine silent _ fun t member => ?_
    rw [List.mem_singleton.1 member]
    exact Word.idle_ofNat _
  rw [TurnedCall.safeSlots, turnedSlots, List.flatMap_append, List.flatMap_append,
    List.flatMap_cons, List.flatMap_cons, count, literal,
    TaggedArgument.safeSlots_flatMap f sound.idle.2 (fun t member => (sound.first_idle t member).1)
      silent inner]
  simp only [List.flatMap_map]
  rfl

/-- The brackets of the list stay the same. -/
theorem safe_brackets (sound : c.Sound verdicts)
    (filled : ∀ a ∈ c.values, ∀ d, Slot.Fills d a.argument.code → Slot.Fills d a.tokens)
    (spelled : ∀ t ∈ c.old, t.Spelled ∧ t.Bracketed) :
    (Slot.written (c.safeSlots o)).filter Token.isBracket =
      (Slot.written c.turnedSlots).filter Token.isBracket := by
  have listed : ∀ t ∈ Slot.written c.slots, t ∈ c.old :=
    fun t member => List.mem_cons_of_mem _ (List.mem_cons_of_mem _ member)
  have idle {tokens : List Token} (all : ∀ t ∈ tokens, t.isBracket = false) :
      tokens.filter Token.isBracket = [] :=
    List.filter_eq_nil_iff.2 fun t member => by simp [all t member]
  have stop {s : Slot} (member : s ∈ c.slots) (comma : s.stop.kind = .comma) :
      s.stop.isBracket = false := by
    have lexeme := (spelled _ (listed _ (Slot.stop_mem_written member))).1.comma comma
    rw [Token.isBracket, lexeme]
    decide
  have literal : ∀ t ∈ c.literal.tokens, t.isBracket = false := fun t member =>
    (spelled t (c.literal_mem_old.1 member)).2.literal (sound.strings t member)
  have brace : (Token.beyond o Word.openBrace).isBracket = false :=
    (Word.idle_openBrace.beyond o).isBracket
  rw [(sound.safe_listed filled).brackets ?_ c.call.opening,
    (sound.turned_listed filled).brackets ?_ c.call.opening, c.safeSlots_closing,
    sound.turned_closing]
  · congr 1
    exact sound.safe_flatMap (·.filter Token.isBracket)
      (fun tokens all => idle fun t member => (all t member).isBracket)
      (fun a _ => List.filter_cons_of_neg (by simp [brace])) (idle literal)
  · intro s member comma
    have stops : s.stop ∈ c.turnedSlots.map (·.stop) := List.mem_map_of_mem member
    rw [turned_stops] at stops
    obtain ⟨s', member', same⟩ := List.mem_map.1 stops
    rw [← same] at comma ⊢
    exact stop member' comma
  · intro s member comma
    rcases List.mem_append.1 member with member | member
    · obtain ⟨a, inside, rfl⟩ := List.mem_map.1 member
      have listed : a.slot ∈ c.slots := slot_mem (List.mem_append_left _ inside)
      exact @stop a.slot listed comma
    · rcases List.mem_cons.1 member with rfl | member
      · exact (Word.idle_comma.beyond o).isBracket
      · rcases TaggedArgument.safeSlots_stop s member with same | same
        · rw [same, sound.closes] at comma
          cases comma
        · rw [same]
          exact (Word.idle_comma.beyond o).isBracket

end Sound

end TurnedCall

/-- Where a token comes from when calls are turned: tokens that name no eligible call stay, words are
added, and turned calls are renamed. -/
inductive Token.Comes (o : Nat) (verdicts : List Verdict) (tokens : List Token) : Token → Prop
  | kept {t : Token} (inside : t ∈ tokens) (quiet : t.kind = .ident →
      ∀ v ∈ verdicts, v.call.name = t → ∀ f, ¬ v.IsEligible f) : Comes o verdicts tokens t
  | added {word : Word} (idle : word.Idle) : Comes o verdicts tokens (beyond o word)
  | renamed {c : TurnedCall} (sound : c.Sound verdicts) (inside : c.call.name ∈ tokens) :
      Comes o verdicts tokens c.safeName

theorem Token.Comes.mono {o : Nat} {verdicts : List Verdict} {tokens more : List Token} {t : Token}
    (comes : Comes o verdicts tokens t) (subset : tokens ⊆ more) : Comes o verdicts more t := by
  cases comes with
  | kept inside quiet => exact .kept (subset inside) quiet
  | added idle => exact .added idle
  | renamed sound inside => exact .renamed sound (subset inside)

namespace Turned

variable {o : Nat} {verdicts : List Verdict} {tokens tokens' : List Token}

/-- Turned calls close the parentheses that they open. -/
theorem fills (turned : Turned o verdicts tokens tokens') :
    ∀ d, Slot.Fills d tokens → Slot.Fills d tokens' := by
  induction turned with
  | nil => exact fun _ => id
  | keep _ _ ih =>
      intro d fills
      obtain ⟨continues, outer, later⟩ := Slot.fills_cons.1 fills
      exact Slot.fills_cons.2 ⟨continues, outer, ih _ later⟩
  | @call c rest rest' sound fixed trailing later ihFixed ihTrailing ih =>
      intro d fills
      have filled := TurnedCall.forall_values (P := fun a => ∀ d, Slot.Fills d a.argument.code →
        Slot.Fills d a.tokens) ihFixed ihTrailing
      have old : Slot.Fills 0 c.old := Patch.fills_call sound.ident sound.opens sound.slots.fills_written
      have new : Slot.Fills 0 (c.new o) := by
        rw [TurnedCall.new, ← c.safeSlots_written]
        exact Patch.fills_call sound.ident sound.opens (sound.safe_listed filled).fills_written
      have whole := new.append (ih d (old.behind fills))
      rwa [Nat.zero_add] at whole

theorem comes (turned : Turned o verdicts tokens tokens') :
    ∀ t ∈ tokens', t.Comes o verdicts tokens := by
  induction turned with
  | nil => exact fun t member => absurd member List.not_mem_nil
  | @keep t rest rest' other _ ih =>
      intro u member
      rcases List.mem_cons.1 member with rfl | member
      · exact .kept List.mem_cons_self fun _ => other
      · exact (ih u member).mono (List.subset_cons_self t rest)
  | @call c rest rest' sound fixed trailing later ihFixed ihTrailing ih =>
      have kept {t : Token} (inside : t ∈ c.old) (kind : t.kind ≠ .ident) :
          t.Comes o verdicts (c.old ++ rest) :=
        .kept (List.mem_append_left _ inside) fun ident => absurd ident kind
      intro t member
      rcases List.mem_append.1 member with member | member
      · rcases List.mem_cons.1 member with rfl | member
        · exact .renamed sound (List.mem_append_left _ List.mem_cons_self)
        rcases List.mem_cons.1 member with rfl | member
        · exact kept (by simp [TurnedCall.old]) (by simp [sound.opens])
        rcases sound.mem_list member with ⟨a, value, inside⟩ | ⟨inside, kind⟩ | ⟨word, idle, rfl⟩
        · have here := TurnedCall.forall_values (P := fun a => ∀ t ∈ a.tokens,
            t.Comes o verdicts a.argument.code) ihFixed ihTrailing a value t inside
          exact here.mono fun u code =>
            List.mem_append_left _ ((TurnedCall.value_mem_old value).1 code)
        · exact kept inside kind
        · exact .added idle
      · exact (ih t member).mono (List.subset_append_right _ _)

theorem visible (turned : Turned o verdicts tokens tokens') (code : ∃ t ∈ tokens, t.kind ≠ .comment) :
    ∃ t ∈ tokens', t.kind ≠ .comment := by
  induction turned with
  | nil => exact code
  | @keep t rest _ _ _ ih =>
      obtain ⟨u, member, kind⟩ := code
      rcases List.mem_cons.1 member with rfl | member
      · exact ⟨u, List.mem_cons_self, kind⟩
      · obtain ⟨u, inside, kind⟩ := ih ⟨u, member, kind⟩
        exact ⟨u, List.mem_cons_of_mem t inside, kind⟩
  | @call c _ _ sound =>
      exact ⟨c.call.opening, by simp [TurnedCall.new], by simp [sound.opens]⟩

end Turned

end FormatLint
