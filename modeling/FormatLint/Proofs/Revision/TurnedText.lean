import FormatLint.Proofs.Call.Bare
import FormatLint.Proofs.Revision.Apart
import FormatLint.Proofs.Revision.SafeWords
import FormatLint.Proofs.Revision.Turned

/-!
The edits that turn calls into safe ones, made in a part of a file that cuts no call in two. What they
replace lies between the tokens that stay, and what they put there is read as the words of a safe
call: `Turnable.chain` says so of the arguments behind the format, `Turnable.fixed` of those in front
of it.
-/

namespace FormatLint

open Token (Laid textOf)

namespace Token.Laid

variable {gap : Token → Text} {o : Nat} {tokens later : List Token} {t : Token} {rest : Text}

theorem stop_last {front : List Token} (laid : Laid gap o (front ++ [t]) rest) :
    t.span.stop.offset = o + (textOf gap (front ++ [t])).length := by
  cases (laid_append.1 laid).2 with
  | cons _ _ start stop _ _ =>
      rw [textOf_append, textOf_cons, textOf_nil]
      simp only [List.length_append, List.append_nil]
      omega

/-- A part of a text may be taken without the gap in front of it. -/
theorem strip (laid : Laid gap o (t :: later) rest) :
    t.span.start.offset = o + (gap t).length ∧ ∃ bare, Laid bare t.span.start.offset (t :: later) rest ∧
      textOf gap (t :: later) = gap t ++ textOf bare (t :: later) := by
  have fresh := (List.nodup_cons.1 laid.ordered.nodup).1
  cases laid with
  | cons _ begins start stop form next =>
      refine ⟨start, fun other => if other = t then [] else gap other, ?_⟩
      obtain ⟨laid, same⟩ := next.congr (fun other => if other = t then [] else gap other)
        fun other member => by rw [if_neg (by rintro rfl; exact fresh member)]
      refine ⟨.cons (by simp) begins (by simp) stop (by rwa [same]) laid, ?_⟩
      rw [textOf_cons, textOf_cons, same]
      simp

theorem begins (laid : Laid gap o (t :: later) rest) :
    (∀ g ∈ gap t, Lexeme.isGap g = true) ∧ ∃ g spelling, t.lexeme = g :: spelling ∧
      Lexeme.isGap g = false := by
  cases laid with
  | cons blank begins _ _ form _ =>
      obtain ⟨g, spelling, spelled⟩ := List.exists_cons_of_ne_nil (Lexeme.form_text_ne_nil form)
      exact ⟨blank, g, spelling, spelled, begins g (by simp [spelled])⟩

/-- Where an argument stands in a text, without the gap in front of it. -/
theorem argument {a : Argument} (laid : Laid gap o a.tokens rest) :
    a.span.start.offset = o + (gap a.first).length ∧
      a.span.stop.offset = o + (textOf gap a.tokens).length ∧
      ∃ bare, Laid bare a.span.start.offset a.tokens rest ∧
        textOf gap a.tokens = gap a.first ++ textOf bare a.tokens := by
  have stop : a.span.stop.offset = o + (textOf gap a.tokens).length := by
    have whole := List.dropLast_append_getLast a.nonempty
    rw [← whole] at laid
    have last := laid.stop_last
    rwa [whole] at last
  obtain ⟨t, later, tokens⟩ := List.exists_cons_of_ne_nil a.nonempty
  have first : a.tokens.head a.nonempty = t := by simp [tokens]
  rw [tokens] at laid
  obtain ⟨start, bare, stripped, text⟩ := laid.strip
  rw [← tokens, ← first] at stripped text
  rw [← first] at start
  exact ⟨start, stop, bare, stripped, text⟩

end Token.Laid

/-- What is behind kept tokens may be rewritten as the last of them allows. -/
theorem Rewrites.behind {gap : Token → Text} {o : Nat} {kept : List Token}
    {before after rest rest' : Text} {edits : List Edit} {words : List Word}
    (laid : Laid gap o kept (before ++ rest))
    (next : ∀ last ∈ kept.getLast?, Head.Succession last.kind (before ++ rest) (after ++ rest'))
    (rewrites : Rewrites (o + (textOf gap kept).length) before edits after words rest') :
    Rewrites o (textOf gap kept ++ before) edits (textOf gap kept ++ after)
      (kept.map Token.word ++ words) rest' := by
  by_cases empty : kept = []
  · subst empty
    exact rewrites
  · exact (Revises.behind laid empty next rewrites).toRewrites

def Word.code (words : List Word) : List Word := words.filter (·.1 ≠ .comment)

theorem Word.code_append (front back : List Word) : code (front ++ back) = code front ++ code back :=
  List.filter_append _ _

theorem Quoted.code {segment : Text} {words : List Word} (quoted : Quoted segment words) :
    Word.code words = words := by
  obtain ⟨bodies, _, _, rfl⟩ := quoted
  refine List.filter_eq_self.2 fun word member => ?_
  obtain ⟨body, _, rfl⟩ := List.mem_map.1 member
  rfl

theorem Token.code_words (tokens : List Token) :
    (code tokens).map word = Word.code (tokens.map word) := by
  rw [code, Word.code, List.filter_map]
  congr 1
  refine List.filter_congr fun t _ => ?_
  by_cases comment : t.kind = .comment <;> simp [isComment, word, comment]

/-- The edits of the calls that begin with the token. -/
def Verdict.editsAt (verdicts : List Verdict) (t : Token) : List Edit :=
  (verdicts.filter (·.call.name = t)).flatMap fun v => v.safeEdits?.getD []

open Verdict (editsAt)

theorem Verdict.editsAt_eq_nil {verdicts : List Verdict}
    (names : ∀ v ∈ verdicts, v.call.name.kind = .ident) {tokens : List Token}
    (other : ∀ t ∈ tokens, t.kind ≠ .ident) : tokens.flatMap (editsAt verdicts) = [] := by
  refine List.flatMap_eq_nil_iff.2 fun t member => ?_
  have empty : verdicts.filter (·.call.name = t) = [] := by
    refine List.filter_eq_nil_iff.2 fun v listed => ?_
    rw [decide_eq_true_eq]
    rintro rfl
    exact other _ member (names v listed)
  rw [editsAt, empty]
  rfl

/-- No call begins at the comments around an argument. -/
theorem Verdict.editsAt_trimmed {verdicts : List Verdict}
    (names : ∀ v ∈ verdicts, v.call.name.kind = .ident) (s : Slot) :
    s.tokens.flatMap (editsAt verdicts) = s.trimmed.flatMap (editsAt verdicts) := by
  obtain ⟨front, back, parts, comments, comments'⟩ := Token.trimComments_split s.tokens
  have silent (quiet : List Token) (only : ∀ t ∈ quiet, t.kind = .comment) :
      quiet.flatMap (editsAt verdicts) = [] :=
    Verdict.editsAt_eq_nil names fun t member => by simp [only t member]
  rw [parts, List.flatMap_append, List.flatMap_append, silent front comments, silent back comments',
    List.nil_append, List.append_nil, Slot.trimmed]

/-- No call begins at the end of a slot. -/
theorem Verdict.editsAt_written {verdicts : List Verdict}
    (names : ∀ v ∈ verdicts, v.call.name.kind = .ident) {s : Slot} (stop : s.stop.kind ≠ .ident)
    (slots : List Slot) : (Slot.written (s :: slots)).flatMap (editsAt verdicts) =
      s.tokens.flatMap (editsAt verdicts) ++ (Slot.written slots).flatMap (editsAt verdicts) := by
  have alone : [s.stop].flatMap (editsAt verdicts) = [] :=
    Verdict.editsAt_eq_nil names (by simpa using stop)
  rw [Slot.written_cons, ← List.singleton_append, List.flatMap_append, List.flatMap_append, alone,
    List.nil_append]

/-- The edits in a part turn the calls in it. -/
structure Turns (bound : Nat) (verdicts : List Verdict) (gap : Token → Text) (o : Nat)
    (part : List Token) (edits : List Edit) (after : Text) (words : List Word)
    (tokens : List Token) (rest rest' : Text) : Prop where
  rewrites : Rewrites o (textOf gap part) edits after words rest'
  follows : ∀ previous, (part = [] → Head.Succession previous rest rest') →
    Head.Succession previous (textOf gap part ++ rest) (after ++ rest')
  edits : edits.Perm (part.flatMap (editsAt verdicts))
  turned : Turned bound verdicts (Token.code part) tokens
  words : tokens.map Token.word = Word.code words

/-- Wherever the part stands, its calls can be turned. -/
def Turnable (bound : Nat) (verdicts : List Verdict) (part : List Token) : Prop :=
  ∀ ⦃gap : Token → Text⦄ ⦃o : Nat⦄ ⦃rest : Text⦄ ⦃rest' : Text⦄, Laid gap o part rest →
    (∀ last ∈ part.getLast?, Head.Succession last.kind rest rest') →
      ∃ edits after words tokens,
        Turns bound verdicts gap o part edits after words tokens rest rest'

/-- An argument of a call in its slot. -/
structure Seat where
  slot : Slot
  argument : Argument

/-- An argument behind the format of a call, with what is known of the edits around it. -/
structure SafeSeat extends Seat where
  family : Family
  segment : Text

/-- The argument fills its slot, comments apart. -/
theorem Seat.bare_slot {e : Seat} (tokens : e.argument.tokens = e.slot.trimmed) :
    Slot.mk e.argument.code e.slot.stop = e.slot.bare := by
  rw [Argument.code, tokens, Slot.trimmed, Token.code_trimComments]
  rfl

/-- What the argument becomes. -/
structure Seat.Becomes (bound : Nat) (verdicts : List Verdict) (e : Seat) (a : TurnedArgument) :
    Prop where
  argument : a.argument = e.argument
  slot : a.slot = e.slot.bare
  turned : Turned bound verdicts e.argument.code a.tokens

namespace SafeSeat

/-- The argument with its tag and segment, from which its edits are made. -/
def tagged (e : SafeSeat) : Argument × Text × Text := (e.argument, e.family.tag, e.segment)

/-- What is put in front of what follows the argument: its tag, and its segment. -/
def lead (e : SafeSeat) : Text := ", " ++ e.family.tag ++ " \x7d, \"" ++ e.segment ++ "\""

structure Sound (bound : Nat) (verdicts : List Verdict) (e : SafeSeat) : Prop where
  argument : e.argument.tokens = e.slot.trimmed
  stop : e.slot.stop.kind ≠ .ident
  turnable : Turnable bound verdicts e.slot.trimmed
  segment : ∃ bodies, bodies ≠ [] ∧ (∀ body ∈ bodies, Enclosed body) ∧
    e.segment = (Text.ofString "\" \"").intercalate bodies

structure Becomes (bound : Nat) (verdicts : List Verdict) (e : SafeSeat) (a : TaggedArgument) :
    Prop where
  seat : e.toSeat.Becomes bound verdicts a.toTurnedArgument
  tag : a.tag = e.family.tag
  segment : Quoted e.segment a.segment

end SafeSeat

variable {bound : Nat} {verdicts : List Verdict}

/-- The edits behind the format put a safe call's list in place of the text `old` between the
arguments: the text `lead`, which is read as `words`, and what becomes of the arguments. -/
structure Chains (bound : Nat) (verdicts : List Verdict) (stop start : Nat) (lead : Text)
    (words : List Word) (entries : List SafeSeat) (old : Text) (edits : List Edit) (after : Text)
    (read : List Word) (trailing : List TaggedArgument) (rest' : Text) : Prop where
  rewrites : Rewrites start old edits (lead ++ after) read rest'
  edits : edits.Perm (Verdict.chainEdits stop start lead (entries.map SafeSeat.tagged) ++
    (Slot.written (entries.map (·.slot))).flatMap (editsAt verdicts))
  words : Word.code read = Word.code words ++ trailing.flatMap (fun a => a.safe.written) ++
    [Word.closeBrace, Word.closeParen]
  become : List.Forall₂ (SafeSeat.Becomes bound verdicts) entries trailing

namespace Chains

variable {start stop : Nat} {lead old rest rest' : Text} {words : List Word}

/-- Behind the last argument. -/
theorem nil (begins : Begins lead words) (old rest' : Text) :
    Chains bound verdicts (start + old.length) start lead words [] old
      [⟨start, start + old.length, lead ++ " \x7d)"⟩] (Text.ofString " \x7d)")
      (words ++ [Word.closeBrace, Word.closeParen]) [] rest' where
  rewrites := .replace old (begins.append begins_end).scan
  edits := .refl _
  words := by
    rw [Word.code_append, List.flatMap_nil, List.append_nil]
    rfl
  become := .nil

/-- In front of one argument more, which is turned where it stands. -/
theorem cons (names : ∀ v ∈ verdicts, v.call.name.kind = .ident) {e : SafeSeat}
    {entries : List SafeSeat} {front later after₁ after₂ rest₁ : Text} {bare : Token → Text}
    {edits₁ edits₂ : List Edit} {read₁ read₂ segment : List Word} {tokens : List Token}
    {trailing : List TaggedArgument} (sound : e.Sound bound verdicts) (begins : Begins lead words)
    (quoted : Quoted e.segment segment)
    (starts : start + front.length = e.argument.span.start.offset)
    (reaches : e.argument.span.start.offset + (textOf bare e.argument.tokens).length =
      e.argument.span.stop.offset)
    (turns : Turns bound verdicts bare e.argument.span.start.offset e.argument.tokens edits₁ after₁
      read₁ tokens rest₁ (e.lead ++ after₂ ++ rest'))
    (chains : Chains bound verdicts stop e.argument.span.stop.offset e.lead
      ([Word.comma, (.ident, e.family.tag), Word.closeBrace, Word.comma] ++ segment) entries later
      edits₂ after₂ read₂ trailing rest') :
    Chains bound verdicts stop start lead words (e :: entries)
      (front ++ (textOf bare e.argument.tokens ++ later))
      (⟨start, e.argument.span.start.offset, lead ++ ", \x7b "⟩ :: (edits₁ ++ edits₂))
      (", \x7b " ++ (after₁ ++ (e.lead ++ after₂)))
      ((words ++ [Word.comma, Word.openBrace]) ++ (read₁ ++ read₂))
      (⟨⟨e.argument, e.slot.stop, tokens⟩, e.family.tag, segment⟩ :: trailing) rest' where
  rewrites := by
    have argument := turns.rewrites.append (by rw [reaches]; exact chains.rewrites)
    have replaced := Rewrites.replace (o := start) front
      (show Scan _ _ ((after₁ ++ (e.lead ++ after₂)) ++ rest') from
        (begins.append begins_argument).scan)
    rw [← starts] at argument ⊢
    rw [← List.append_assoc lead]
    exact replaced.append argument
  edits := by
    rw [List.map_cons, List.map_cons, Verdict.editsAt_written names sound.stop,
      Verdict.editsAt_trimmed names, ← sound.argument]
    refine .cons _ ((turns.edits.append chains.edits).trans ?_)
    exact List.perm_append_comm_assoc _ _ _
  words := by
    rw [Word.code_append, Word.code_append, Word.code_append, chains.words, ← turns.words,
      Word.code_append, quoted.code]
    simp [TaggedArgument.safe, SafeArgument.written, Word.code, Word.comma, Word.openBrace,
      Word.closeBrace]
  become := .cons ⟨⟨rfl, Seat.bare_slot sound.argument, turns.turned⟩, rfl, quoted⟩ chains.become

end Chains

/-- The arguments behind the format can be turned. The tokens `dropped` stand between the place where
the edits begin and the first argument. -/
theorem Turnable.chain (names : ∀ v ∈ verdicts, v.call.name.kind = .ident) {gap : Token → Text}
    {start : Nat} {dropped : List Token} {entries : List SafeSeat} {rest lead : Text}
    {words : List Word} {closing : Token}
    (laid : Laid gap start (dropped ++ Slot.written (entries.map (·.slot))) rest)
    (ends : (dropped ++ Slot.written (entries.map (·.slot))).getLast? = some closing)
    (sound : ∀ e ∈ entries, e.Sound bound verdicts) (begins : Begins lead words) (rest' : Text) :
    ∃ edits after read trailing, Chains bound verdicts closing.span.stop.offset start lead words entries
      (textOf gap (dropped ++ Slot.written (entries.map (·.slot)))) edits after read trailing
      rest' := by
  induction entries generalizing start dropped lead words with
  | nil =>
      obtain ⟨front, rfl⟩ := List.getLast?_eq_some_iff.1 (by simpa [Slot.written] using ends)
      have written : Slot.written (([] : List SafeSeat).map (·.slot)) = [] := rfl
      rw [written, List.append_nil] at laid ⊢
      rw [laid.stop_last]
      exact ⟨_, _, _, _, .nil begins _ rest'⟩
  | cons e entries ih =>
      have here := sound e List.mem_cons_self
      obtain ⟨bodies, nonempty, enclosed, spelled⟩ := here.segment
      obtain ⟨segment, quoted, literals⟩ := exists_quoted nonempty enclosed spelled
      obtain ⟨front, back, parts, _⟩ := Token.trimComments_split e.slot.tokens
      have tokens := here.argument
      have whole : dropped ++ Slot.written ((e :: entries).map (·.slot)) = (dropped ++ front) ++
          (e.argument.tokens ++ ((back ++ [e.slot.stop]) ++ Slot.written (entries.map (·.slot)))) := by
        rw [tokens, List.map_cons, Slot.written_cons, parts, Slot.trimmed]
        simp
      have behind : ((back ++ [e.slot.stop]) ++ Slot.written (entries.map (·.slot))).getLast? =
          some closing := by
        rw [whole, ← List.append_assoc, List.getLast?_append_of_ne_nil _ (by simp)] at ends
        exact ends
      rw [whole] at laid ⊢
      obtain ⟨laid₁, laid⟩ := Token.laid_append.1 laid
      obtain ⟨laid₂, laid₃⟩ := Token.laid_append.1 laid
      obtain ⟨starts, reaches, bare, laid₂, text⟩ := laid₂.argument
      rw [← reaches] at laid₃
      -- the later arguments are turned first: what this one becomes depends on what follows it
      obtain ⟨edits₂, after₂, read₂, trailing, chains⟩ :=
        ih laid₃ behind (fun other member => sound other (List.mem_cons_of_mem e member))
          (begins_tag e.family literals)
      have next : ∀ last ∈ e.argument.tokens.getLast?, Head.Succession last.kind
          (textOf gap ((back ++ [e.slot.stop]) ++ Slot.written (entries.map (·.slot))) ++ rest)
          (e.lead ++ after₂ ++ rest') := by
        intro last final
        rw [tokens] at final
        exact .boundary (Token.trimComments_last _ last final) (by decide)
      obtain ⟨edits₁, after₁, read₁, tokens₁, turns⟩ := here.turnable (tokens ▸ laid₂) (tokens ▸ next)
      rw [← tokens] at turns
      have old : textOf gap (dropped ++ front ++ (e.argument.tokens ++
          ((back ++ [e.slot.stop]) ++ Slot.written (entries.map (·.slot))))) =
          textOf gap (dropped ++ front) ++ gap e.argument.first ++ (textOf bare e.argument.tokens ++
            textOf gap ((back ++ [e.slot.stop]) ++ Slot.written (entries.map (·.slot)))) := by
        rw [Token.textOf_append gap (dropped ++ front), Token.textOf_append gap e.argument.tokens, text]
        simp
      have length := congrArg List.length text
      rw [List.length_append] at length
      rw [old]
      refine ⟨_, _, _, _, .cons names here begins quoted ?_ ?_ turns chains⟩
      · rw [List.length_append, starts]
        omega
      · omega

/-- The arguments in front of the format are turned where they stand, and the tokens `kept` stay
behind them. What follows has the edits `edits₀`, and is read as `words₀`. -/
structure Fixes (bound : Nat) (verdicts : List Verdict) (kept : List Token) (edits₀ : List Edit)
    (words₀ : List Word) (o : Nat) (seats : List Seat) (old : Text) (edits : List Edit) (after : Text)
    (read : List Word) (fixed : List TurnedArgument) (rest' : Text) : Prop where
  rewrites : Rewrites o old edits after read rest'
  edits : edits.Perm ((Slot.written (seats.map (·.slot))).flatMap (editsAt verdicts) ++ edits₀)
  words : Word.code read = (fixed.flatMap TurnedArgument.written).map Token.word ++
    (Token.code kept).map Token.word ++ Word.code words₀
  become : List.Forall₂ (Seat.Becomes bound verdicts) seats fixed

/-- In front of one argument more, and the comma behind it. -/
theorem Fixes.cons {kept : List Token} {edits₀ edits₁ edits₂ : List Edit}
    {words₀ read₁ read₂ : List Word} {o o' : Nat} {e : Seat} {seats : List Seat}
    {gap : Token → Text} {later old after₁ after₂ after rest₁ rest' : Text} {tokens : List Token}
    {fixed : List TurnedArgument} (names : ∀ v ∈ verdicts, v.call.name.kind = .ident)
    (comma : e.slot.stop.kind = .comma) (argument : e.argument.tokens = e.slot.trimmed)
    (turns : Turns bound verdicts gap o e.slot.tokens edits₁ after₁ read₁ tokens rest₁
      (after₂ ++ rest'))
    (stop : Rewrites (o + (textOf gap e.slot.tokens).length) later edits₂ after₂
      ([e.slot.stop.word] ++ read₂) rest')
    (fixes : Fixes bound verdicts kept edits₀ words₀ o' seats old edits₂ after read₂ fixed rest') :
    Fixes bound verdicts kept edits₀ words₀ o (e :: seats) (textOf gap e.slot.tokens ++ later)
      (edits₁ ++ edits₂) (after₁ ++ after₂) (read₁ ++ ([e.slot.stop.word] ++ read₂))
      (⟨e.argument, e.slot.stop, tokens⟩ :: fixed) rest' where
  rewrites := turns.rewrites.append stop
  edits := by
    rw [List.map_cons, Verdict.editsAt_written names (by simp [comma]), List.append_assoc]
    exact turns.edits.append fixes.edits
  words := by
    have word : Word.code [e.slot.stop.word] = [e.slot.stop.word] := by
      simp [Word.code, Token.word, comma]
    rw [Word.code_append, Word.code_append, fixes.words, ← turns.words, word]
    simp [TurnedArgument.written]
  become := by
    have bare := Seat.bare_slot argument
    have code : e.argument.code = Token.code e.slot.tokens := congrArg Slot.tokens bare
    exact .cons ⟨rfl, bare, code ▸ turns.turned⟩ fixes.become

/-- The arguments in front of the format can be turned where they stand, and so what follows them and
the tokens `kept` may be rewritten. -/
theorem Turnable.fixed (names : ∀ v ∈ verdicts, v.call.name.kind = .ident) {gap : Token → Text}
    {o : Nat} {seats : List Seat} {kept : List Token} {before after rest rest' : Text}
    {edits : List Edit} {words : List Word}
    (laid : Laid gap o (Slot.written (seats.map (·.slot)) ++ kept) (before ++ rest))
    (commas : ∀ e ∈ seats, e.slot.stop.kind = .comma)
    (arguments : ∀ e ∈ seats, e.argument.tokens = e.slot.trimmed)
    (turnable : ∀ e ∈ seats, Turnable bound verdicts e.slot.tokens)
    (next : ∀ last ∈ kept.getLast?, Head.Succession last.kind (before ++ rest) (after ++ rest'))
    (rewrites : Rewrites (o + (textOf gap (Slot.written (seats.map (·.slot)) ++ kept)).length)
      before edits after words rest') :
    ∃ edits' after' read fixed, Fixes bound verdicts kept edits words o seats
      (textOf gap (Slot.written (seats.map (·.slot)) ++ kept) ++ before) edits' after' read fixed
      rest' := by
  induction seats generalizing o with
  | nil =>
      refine ⟨edits, _, _, [], Rewrites.behind laid next rewrites, .refl _, ?_, .nil⟩
      rw [Word.code_append, ← Token.code_words]
      rfl
  | cons e seats ih =>
      generalize made : Slot.written (seats.map (·.slot)) ++ kept = behind at ih
      have whole : Slot.written ((e :: seats).map (·.slot)) ++ kept =
          e.slot.tokens ++ ([e.slot.stop] ++ behind) := by
        simp [← made]
      rw [whole] at laid rewrites ⊢
      obtain ⟨laid₁, laid⟩ := Token.laid_append.1 laid
      obtain ⟨laid₂, laid₃⟩ := Token.laid_append.1 laid
      have offset : o + (textOf gap (e.slot.tokens ++ ([e.slot.stop] ++ behind))).length =
          o + (textOf gap e.slot.tokens).length + (textOf gap [e.slot.stop]).length +
            (textOf gap behind).length := by
        rw [Token.textOf_append gap e.slot.tokens, Token.textOf_append gap [e.slot.stop],
          List.length_append, List.length_append]
        omega
      rw [offset] at rewrites
      obtain ⟨edits₂, after₂, read₂, fixed, fixes⟩ := ih laid₃
        (fun other member => commas other (List.mem_cons_of_mem e member))
        (fun other member => arguments other (List.mem_cons_of_mem e member))
        (fun other member => turnable other (List.mem_cons_of_mem e member)) rewrites
      have comma := commas e List.mem_cons_self
      rw [← List.append_assoc (textOf gap behind)] at laid₂
      have stop := Revises.behind laid₂ (by simp) (by
        intro last final
        cases final
        exact .delimited (.inl (by simp [comma]))) fixes.rewrites
      have text : textOf gap ([e.slot.stop] ++ behind) ++ (before ++ rest) =
          textOf gap [e.slot.stop] ++ (textOf gap behind ++ before) ++ rest := by
        rw [Token.textOf_append]
        simp
      rw [text] at laid₁
      obtain ⟨edits₁, after₁, read₁, tokens, turns⟩ := turnable e List.mem_cons_self laid₁
        fun last _ => stop.follows last.kind
      have old : textOf gap (e.slot.tokens ++ ([e.slot.stop] ++ behind)) ++ before =
          textOf gap e.slot.tokens ++ (textOf gap [e.slot.stop] ++ (textOf gap behind ++ before)) := by
        rw [Token.textOf_append gap e.slot.tokens, Token.textOf_append gap [e.slot.stop]]
        simp
      rw [old]
      exact ⟨_, _, _, _, .cons names comma (arguments e List.mem_cons_self) turns stop.toRewrites fixes⟩

end FormatLint
