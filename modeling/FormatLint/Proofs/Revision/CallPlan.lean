import FormatLint.Proofs.Revision.TurnedText

/-!
A whole call in the text of a file, and what its edits make of it. `CallPlan.Sound.turnable` says that
they turn it, with all calls in its arguments, wherever it stands.
-/

namespace FormatLint

open Token (Laid textOf)
open Verdict (editsAt)

/-- A call that is to be turned, as it stands among comments. -/
structure CallPlan where
  verdict : Verdict
  format : FormatString
  /-- What stands between the name and the parenthesis. -/
  comments : List Token
  fixed : List Seat
  /-- The comments around the format, and what stands behind it. -/
  front : List Token
  literal : Argument
  back : List Token
  stop : Token
  /-- The first segment. -/
  segment : Text
  trailing : List SafeSeat

theorem Slot.Listed.bare {slots : List Slot} (listed : Slot.Listed 0 slots) :
    Slot.Listed 0 (slots.map Slot.bare) := by
  have code := Slot.cut_code 0 (Slot.written slots ++ [])
  rw [Slot.cut_written listed] at code
  exact (Slot.cut_eq_some_iff.1 code).1

theorem Slot.Listed.code_written {d : Nat} {slots : List Slot} (listed : Slot.Listed d slots) :
    Token.code (Slot.written slots) = Slot.written (slots.map Slot.bare) := by
  rw [Token.code, Slot.written, List.filter_flatMap, Slot.written, List.flatMap_map]
  refine List.flatMap_congr fun s member => ?_
  have code : s.stop.isComment = false := by
    rcases listed.stop_kind s member with kind | kind <;> simp [Token.isComment, kind]
  simp [Slot.bare, Token.code, code]

namespace CallPlan

def call (p : CallPlan) : Call := p.verdict.call

/-- The text that the edits keep behind the parenthesis. -/
def middle (p : CallPlan) : List Token := Slot.written (p.fixed.map (·.slot)) ++ p.front

/-- The format and what stands behind it. -/
def tail (p : CallPlan) : List Token :=
  (p.literal.tokens ++ (p.back ++ [p.stop])) ++ Slot.written (p.trailing.map (·.slot))

def slots (p : CallPlan) : List Slot :=
  p.fixed.map (·.slot) ++ ⟨p.front ++ p.literal.tokens ++ p.back, p.stop⟩ :: p.trailing.map (·.slot)

def tokens (p : CallPlan) : List Token :=
  p.call.name :: (p.comments ++ p.call.opening :: Slot.written p.slots)

def lead (p : CallPlan) : Text :=
  Text.ofNat p.format.segments.length ++ ", \x7b \"" ++ p.segment ++ "\""

/-- The edits of the call itself. -/
def edits (p : CallPlan) : List Edit :=
  ⟨p.call.name.span.start.offset, p.call.name.span.stop.offset, p.call.printer.safeName⟩ ::
    Verdict.chainEdits p.call.closing.span.stop.offset p.literal.span.start.offset p.lead
      (p.trailing.map SafeSeat.tagged)

def turned (p : CallPlan) (fixed : List TurnedArgument) (trailing : List TaggedArgument)
    (segment : List Word) : TurnedCall :=
  ⟨p.verdict, p.format, ⟨p.literal.code, p.stop⟩, fixed, trailing, segment⟩

structure Sound (bound : Nat) (verdicts : List Verdict) (p : CallPlan) : Prop where
  listed : p.verdict ∈ verdicts
  eligible : p.verdict.IsEligible p.format
  ident : p.call.name.kind = .ident
  printer : PrinterTable.standard.find? p.call.name.lexeme = some p.call.printer
  comments : ∀ t ∈ p.comments ++ p.front ++ p.back, t.kind = .comment
  opens : p.call.opening.kind = .openParen
  slots : Slot.Listed 0 p.slots
  filled : ∀ s ∈ p.slots, ¬ s.IsBlank
  closing : Slot.closing p.call.opening p.slots = p.call.closing
  closes : p.call.closing.word = Word.closeParen
  before : p.fixed.map (·.argument) = p.call.fixedArguments
  literal : p.call.format? = some p.literal
  strings : ∀ t ∈ p.literal.code, t.kind = .string
  behind : p.trailing.map (·.argument) = p.call.trailingArguments
  seats : ∀ e ∈ p.fixed, e.argument.tokens = e.slot.trimmed ∧ Turnable bound verdicts e.slot.tokens
  safe : ∀ e ∈ p.trailing, e.Sound bound verdicts
  tags : p.trailing.map (some ·.family.tag) = p.format.demands.map fun d => d.family?.map Family.tag
  segments : p.format.segments = p.segment :: p.trailing.map (·.segment)
  segment : ∃ bodies, bodies ≠ [] ∧ (∀ body ∈ bodies, Enclosed body) ∧
    p.segment = (Text.ofString "\" \"").intercalate bodies
  edits : editsAt verdicts p.call.name = p.edits

variable {bound : Nat} {verdicts : List Verdict} {p : CallPlan}

theorem written_eq (p : CallPlan) : Slot.written p.slots = p.middle ++ p.tail := by
  simp [slots, middle, tail]

namespace Sound

/-- The edits behind the arguments in front of the format. -/
theorem turn_tail (names : ∀ v ∈ verdicts, v.call.name.kind = .ident)
    (sound : p.Sound bound verdicts) {gap : Token → Text} {o : Nat} {rest : Text}
    (laid : Laid gap o p.tail rest) (rest' : Text) :
    ∃ edits after read, ∃ segment : List Word, ∃ trailing : List TaggedArgument,
      Rewrites o (textOf gap p.tail) edits after read rest' ∧
      (∀ last : Token, last.kind = .comment →
        Head.Succession last.kind (textOf gap p.tail ++ rest) (after ++ rest')) ∧
      edits.Perm (Verdict.chainEdits p.call.closing.span.stop.offset p.literal.span.start.offset p.lead
          (p.trailing.map SafeSeat.tagged) ++
        (Slot.written (p.trailing.map (·.slot))).flatMap (editsAt verdicts)) ∧
      Word.code read = [(.other, Text.ofNat p.format.segments.length), Word.comma, Word.openBrace] ++
        segment ++ trailing.flatMap (fun a => a.safe.written) ++ [Word.closeBrace, Word.closeParen] ∧
      Quoted p.segment segment ∧
      List.Forall₂ (SafeSeat.Becomes bound verdicts) p.trailing trailing := by
  obtain ⟨bodies, nonempty, enclosed, spelled⟩ := sound.segment
  obtain ⟨segment, quoted, literals⟩ := exists_quoted nonempty enclosed spelled
  have ends : p.tail.getLast? = some p.call.closing := by
    obtain ⟨inner, whole, _⟩ := sound.slots.closing_eq p.call.opening
    have last := congrArg List.getLast? whole
    rwa [p.written_eq, sound.closing, List.getLast?_concat,
      List.getLast?_append_of_ne_nil _ (by simp [CallPlan.tail])] at last
  have first : p.literal.tokens = p.literal.first :: p.literal.tokens.tail :=
    (List.cons_head_tail p.literal.nonempty).symm
  have tail : p.tail = p.literal.first :: (p.literal.tokens.tail ++ (p.back ++ [p.stop]) ++
      Slot.written (p.trailing.map (·.slot))) := by
    rw [CallPlan.tail, first]
    rfl
  rw [tail] at laid
  obtain ⟨start, bare, stripped, text⟩ := laid.strip
  obtain ⟨blank, g, later, word, inside⟩ := laid.begins
  rw [← tail] at stripped text
  have offset : p.literal.span.start.offset = o + (gap p.literal.first).length := start
  obtain ⟨edits, after, read, trailing, rewrites, perm, words, become⟩ :=
    Turnable.chain names stripped ends sound.safe (begins_count p.format.segments.length literals) rest'
  obtain ⟨more, old⟩ : ∃ more, textOf gap p.tail = gap p.literal.first ++ g :: more := by
    rw [tail, Token.textOf_cons, word]
    exact ⟨_, rfl⟩
  refine ⟨edits, gap p.literal.first ++ (p.lead ++ after), read, segment, trailing, ?_, ?_, perm, ?_,
    quoted, become⟩
  · rw [text]
    exact .gaps blank (offset ▸ rewrites)
  · intro last comment
    have visible : g ≠ .char '\n' := by
      rintro rfl
      exact absurd inside (by decide)
    rw [old, List.append_assoc, List.append_assoc]
    exact Lexeme.gaps_follow blank (.delimited (.inr ⟨comment, by simp, by simpa using visible⟩))
  · rw [words, Word.code_append, quoted.code]
    rfl

theorem turned_sound (sound : p.Sound bound verdicts) {fixed : List TurnedArgument}
    {trailing : List TaggedArgument} {segment : List Word}
    (before : List.Forall₂ (Seat.Becomes bound verdicts) p.fixed fixed)
    (behind : List.Forall₂ (SafeSeat.Becomes bound verdicts) p.trailing trailing)
    (quoted : Quoted p.segment segment) :
    (p.turned fixed trailing segment).Sound verdicts ∧
      (p.turned fixed trailing segment).slots = p.slots.map Slot.bare := by
  have comments (quiet : List Token) (inside : quiet ⊆ p.comments ++ p.front ++ p.back) :
      Token.code quiet = [] :=
    Token.code_comments fun t member => sound.comments t (inside member)
  have literal : Token.code (p.front ++ p.literal.tokens ++ p.back) = p.literal.code := by
    have front := comments p.front (by simp)
    have back := comments p.back (by simp)
    rw [Token.code_append, Token.code_append, front, back, List.nil_append, List.append_nil]
    rfl
  have slots : (p.turned fixed trailing segment).slots = p.slots.map Slot.bare := by
    have left : fixed.map (·.slot) = p.fixed.map (·.slot.bare) :=
      map_eq_of_forall₂ (fun _ _ become => become.slot) before
    have right : trailing.map (·.slot) = p.trailing.map (·.slot.bare) :=
      map_eq_of_forall₂ (fun _ _ become => become.seat.slot) behind
    rw [TurnedCall.slots, turned, left, right, CallPlan.slots, List.map_append, List.map_cons,
      List.map_map, List.map_map, Slot.bare, literal]
    rfl
  refine ⟨⟨sound.listed, sound.eligible, sound.ident, sound.printer, sound.opens, ?_, ?_, ?_, ?_, ?_,
    sound.strings, ?_, ?_, ?_⟩, slots⟩
  · rw [slots]
    exact sound.slots.bare
  · intro s member
    rw [slots] at member
    obtain ⟨s, listed, rfl⟩ := List.mem_map.1 member
    rw [← Slot.trimmed_eq_nil_iff, Slot.bare_trimmed_nil_iff, Slot.trimmed_eq_nil_iff]
    exact sound.filled s listed
  · rw [slots, Slot.closing, Slot.getLast?_bare]
    exact sound.closing
  · rw [turned, map_eq_of_forall₂ (fun _ _ become => become.argument) before]
    exact sound.before
  · rw [show TurnedCall.call _ = p.call from rfl, sound.literal]
    rfl
  · rw [turned, map_eq_of_forall₂ (fun _ _ become => become.seat.argument) behind]
    exact sound.behind
  · change _ = p.format.demands.map _
    rw [← sound.tags]
    exact map_eq_of_forall₂ (fun _ _ become => congrArg some become.tag) behind
  · rw [turned, sound.segments]
    refine .cons quoted ?_
    rw [List.forall₂_map_left_iff, List.forall₂_map_right_iff]
    exact behind.imp fun _ _ become => become.segment

/-- No call begins around the format, or in it. -/
theorem silent (names : ∀ v ∈ verdicts, v.call.name.kind = .ident) (sound : p.Sound bound verdicts)
    (quiet : List Token) (inside : quiet ⊆ p.comments ++ p.front ++ p.back ++
      (p.call.opening :: p.stop :: p.literal.tokens)) : quiet.flatMap (editsAt verdicts) = [] := by
  refine Verdict.editsAt_eq_nil names fun t member => ?_
  rcases List.mem_append.1 (inside member) with quiet | other
  · simp [sound.comments t quiet]
  rcases List.mem_cons.1 other with rfl | other
  · simp [sound.opens]
  rcases List.mem_cons.1 other with rfl | other
  · rcases sound.slots.stop_kind ⟨_, p.stop⟩ (List.mem_append_right _ List.mem_cons_self) with
      comma | closes
    · simp [show p.stop.kind = .comma from comma]
    · simp [show p.stop.kind = .closeParen from closes]
  · intro name
    have string := sound.strings t (List.mem_filter.2 ⟨other, by simp [Token.isComment, name]⟩)
    rw [name] at string
    cases string

theorem turn_list (names : ∀ v ∈ verdicts, v.call.name.kind = .ident)
    (sound : p.Sound bound verdicts) {more : List Token} (turnable : Turnable bound verdicts more)
    {gap : Token → Text} {o : Nat} {rest rest' : Text}
    (laid : Laid gap o (Slot.written p.slots ++ more) rest)
    (next : ∀ last ∈ more.getLast?, Head.Succession last.kind rest rest') :
    ∃ edits after read, ∃ c : TurnedCall, ∃ tokens,
      Rewrites o (textOf gap (Slot.written p.slots ++ more)) edits after read rest' ∧
      edits.Perm (Verdict.chainEdits p.call.closing.span.stop.offset p.literal.span.start.offset p.lead
          (p.trailing.map SafeSeat.tagged) ++
        (Slot.written p.slots ++ more).flatMap (editsAt verdicts)) ∧
      Word.code read = (c.list bound ++ tokens).map Token.word ∧ c.call = p.call ∧
      Turned bound verdicts (p.call.name :: p.call.opening ::
        (Slot.written (p.slots.map Slot.bare) ++ Token.code more)) (c.new bound ++ tokens) := by
  have whole : Slot.written p.slots ++ more = p.middle ++ (p.tail ++ more) := by
    rw [p.written_eq, List.append_assoc]
  rw [whole] at laid ⊢
  obtain ⟨laid₁, laid⟩ := Token.laid_append.1 laid
  obtain ⟨laid₂, laid₃⟩ := Token.laid_append.1 laid
  -- The parts are turned from the last one to the first: what stays of a part is read again in front
  -- of what became of the text behind it.
  obtain ⟨edits₃, after₃, read₃, tokens, turns⟩ := turnable laid₃ next
  obtain ⟨edits₂, after₂, read₂, segment, trailing, rewrites₂, visible, perm₂, words₂, quoted, behind⟩ :=
    sound.turn_tail names laid₂ (after₃ ++ rest')
  have rewrites := rewrites₂.append turns.rewrites
  rw [← Token.textOf_append] at rewrites
  obtain ⟨edits, after, read, fixed, rewrites, perm, words, before⟩ := Turnable.fixed names laid₁
    (fun e member => sound.slots.commas e.slot (List.mem_map_of_mem member))
    (fun e member => (sound.seats e member).1) (fun e member => (sound.seats e member).2) (by
      intro last final
      have comment := sound.comments last (by simp [List.mem_of_getLast? final])
      have succession := visible last comment
      rw [Token.textOf_append]
      simpa using succession) rewrites
  obtain ⟨made, slots⟩ := sound.turned_sound before behind quoted
  have fixedTurned : ∀ a ∈ fixed, Turned bound verdicts a.argument.code a.tokens := by
    intro a member
    obtain ⟨e, _, become⟩ := forall₂_exists before member
    exact become.argument ▸ become.turned
  have trailingTurned : ∀ a ∈ trailing, Turned bound verdicts a.argument.code a.tokens := by
    intro a member
    obtain ⟨e, _, become⟩ := forall₂_exists behind member
    exact become.seat.argument ▸ become.seat.turned
  have turned := Turned.call made fixedTurned trailingTurned turns.turned
  refine ⟨edits, after, read, p.turned fixed trailing segment, tokens, ?_, ?_, ?_, rfl, ?_⟩
  · rw [Token.textOf_append]
    exact rewrites
  · have silent := sound.silent names
    rw [middle, tail, List.flatMap_append, List.flatMap_append, List.flatMap_append,
      List.flatMap_append, silent p.front (by simp),
      silent (p.literal.tokens ++ (p.back ++ [p.stop])) (by grind),
      List.append_nil, List.nil_append]
    refine (perm.trans ((perm₂.append turns.edits).append_left _)).trans ?_
    rw [List.append_assoc]
    exact List.perm_append_comm_assoc _ _ _
  · have count : p.format.segments.length = trailing.length + 1 := by
      rw [sound.segments, List.length_cons, List.length_map, behind.length_eq]
    have closing : (p.turned fixed trailing segment).call.closing.word = Word.closeParen :=
      sound.closes
    have quiet : Token.code p.front = [] :=
      Token.code_comments fun t member => sound.comments t (by simp [member])
    rw [words, Word.code_append, words₂, ← turns.words, quiet, count, List.map_append,
      TurnedCall.list_words, closing]
    simp [CallPlan.turned]
  · rw [TurnedCall.old, slots] at turned
    exact turned

theorem code_opening (sound : p.Sound bound verdicts) :
    Token.code (p.comments ++ [p.call.opening]) = [p.call.opening] := by
  have quiet : Token.code p.comments = [] :=
    Token.code_comments fun t member => sound.comments t (by simp [member])
  rw [Token.code_append, quiet, Token.code_cons (by simp [Token.isComment, sound.opens])]
  rfl

/-- A call is turned wherever it stands, if what stands behind it can be. -/
theorem turnable (names : ∀ v ∈ verdicts, v.call.name.kind = .ident)
    (sound : p.Sound bound verdicts) {more : List Token} (turnable : Turnable bound verdicts more) :
    Turnable bound verdicts (p.tokens ++ more) := by
  intro gap o rest rest' laid next
  have whole : p.tokens ++ more = p.call.name :: ((p.comments ++ [p.call.opening]) ++
      (Slot.written p.slots ++ more)) := by
    simp [CallPlan.tokens]
  rw [whole] at laid next ⊢
  obtain ⟨⟨g, later, name, letter⟩, ⟨nonempty, letters⟩, bare⟩ :=
    PrinterTable.standard_names sound.printer
  cases laid with
  | cons blank _ start stop form laid =>
  obtain ⟨laid₁, laid₂⟩ := Token.laid_append.1 laid
  obtain ⟨edits₂, after₂, read₂, c, tokens, rewrites₂, perm₂, words₂, same, turned⟩ :=
    sound.turn_list names turnable laid₂ (by
      intro last final
      refine next last ?_
      rw [← List.append_assoc, ← List.cons_append, List.getLast?_append, final]
      rfl)
  have opened := Rewrites.behind laid₁ (by
    intro last final
    obtain rfl : p.call.opening = last := by simpa using final
    exact .delimited (.inl (by simp [sound.opens]))) rewrites₂
  rw [← Token.textOf_append, stop] at opened
  obtain ⟨_, first, spelling, spelled, _⟩ := (Token.laid_append.1 laid₁).2.begins
  obtain ⟨visible, text, front⟩ : ∃ visible text,
      textOf gap (p.comments ++ [p.call.opening]) = visible :: text :=
    List.exists_cons_of_ne_nil (by simp [Token.textOf_append, Token.textOf_cons, spelled])
  -- What ended the old name ends the new one too, since the comments and the parenthesis stay.
  have ends := (sound.ident ▸ form).ident_inversion.2
  have named : Head.Form .ident p.call.printer.safeName
      (textOf gap (p.comments ++ [p.call.opening]) ++ after₂ ++ rest') := Head.form_name
    ⟨nonempty, letters⟩ (by rw [Token.textOf_append, front] at ends; rw [front]; exact ends) bare
  obtain ⟨tail, safe⟩ : ∃ tail, p.call.printer.safeName = .char 's' :: tail := ⟨_, rfl⟩
  have replaced := Rewrites.replace (o := p.call.name.span.start.offset) p.call.name.lexeme
    (Scan.single (by rw [safe]; simp; decide) named)
  have rewrites := Rewrites.gaps blank (start ▸ replaced.append opened)
  refine ⟨_, gap p.call.name ++ (p.call.printer.safeName ++
    (textOf gap (p.comments ++ [p.call.opening]) ++ after₂)), _, c.new bound ++ tokens,
    by rw [Token.textOf_cons]; exact rewrites, ?_, ?_, ?_, ?_⟩
  · intro previous _
    rw [Token.textOf_cons, name, safe]
    simp only [List.append_assoc, List.cons_append]
    exact Lexeme.gaps_follow blank (.letter letter (show Head.isAlpha (.char 's') = true by decide))
  · have silent := sound.silent names (p.comments ++ [p.call.opening]) (by grind)
    rw [List.flatMap_cons, List.flatMap_append, silent, sound.edits, List.nil_append, CallPlan.edits,
      stop, start]
    exact .cons _ perm₂
  · have parts : Token.code (p.call.name :: ((p.comments ++ [p.call.opening]) ++
        (Slot.written p.slots ++ more))) = p.call.name :: (Token.code (p.comments ++ [p.call.opening]) ++
          (Token.code (Slot.written p.slots) ++ Token.code more)) := by
      rw [Token.code_cons (by simp [Token.isComment, sound.ident]),
        Token.code_append (p.comments ++ [p.call.opening]), Token.code_append (Slot.written p.slots)]
    rw [parts, sound.code_opening, sound.slots.code_written]
    exact turned
  · have name : c.safeName.word = (.ident, p.call.printer.safeName) := by
      rw [TurnedCall.safeName, same, Token.word, sound.ident]
    rw [Word.code_append, Word.code_append, words₂, ← Token.code_words, sound.code_opening,
      TurnedCall.new]
    simp [name, same, Word.code]

end Sound

end CallPlan

end FormatLint
