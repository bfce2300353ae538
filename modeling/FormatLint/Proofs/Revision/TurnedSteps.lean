import FormatLint.Proofs.Revision.TurnedSlots

/-!
Turning calls one by one, those in the arguments of a call before the call itself. When its turn
comes, a call is taken out of those that are found, and all others stay what they were:
`TurnedCall.Sound.leaves`. `Turned.leaves` puts the steps together.
-/

namespace FormatLint

/-- The mention is a call that is not turned, or one that cannot be read. -/
def Mention.stays (verdicts : List Verdict) : Mention → Bool
  | .call c => verdicts.all fun v => !(v.call.name = c.name && v.safeEdits?.isSome)
  | .malformed _ => true
  | _ => false

/-- The same is said about the call, whatever was turned in its arguments. -/
structure Call.Stays (source : Source) (c c' : Call) : Prop where
  name : c'.name = c.name
  same : Places.same.SameVerdicts (c.check source) (c'.check source)

/-- The same calls are found in both lists, but for those that are turned. -/
def Leaves (source : Source) (verdicts : List Verdict) (tokens tokens' : List Token) : Prop :=
  List.Forall₂ (Places.same.Mentions (Call.Stays source))
    ((Mention.scan .standard none tokens).filter (Mention.stays verdicts))
    ((Mention.scan .standard none tokens').filter (Mention.stays verdicts))

variable {source : Source} {verdicts : List Verdict}

theorem Mention.stays_congr {m m' : Mention}
    (same : Places.same.Mentions (Call.Stays source) m m') : m'.stays verdicts = m.stays verdicts := by
  cases same with
  | value => rfl
  | declared => rfl
  | malformed => rfl
  | call here => rw [stays, stays, here.name]

theorem Call.stays_refl (source : Source) (c : Call) : c.Stays source c :=
  ⟨rfl, Call.check_same (Places.calls_refl c) rfl⟩

namespace Leaves

theorem refl (tokens : List Token) : Leaves source verdicts tokens tokens :=
  Places.mentions_refl fun c _ => c.stays_refl source

theorem trans {first second third : List Token} (front : Leaves source verdicts first second)
    (back : Leaves source verdicts second third) : Leaves source verdicts first third := by
  refine Places.mentions_trans (Places.composes_same _) ?_ front back
  exact fun c c' c'' here there =>
    ⟨there.name.trans here.name, here.same.trans (Places.composes_same _) there.same⟩

theorem written {slots slots' : List Slot}
    (each : List.Forall₂ (fun s s' : Slot => s'.stop = s.stop ∧ ∀ front back,
      Leaves source verdicts (front ++ (s.tokens ++ back)) (front ++ (s'.tokens ++ back)))
      slots slots') (front back : List Token) :
    Leaves source verdicts (front ++ (Slot.written slots ++ back))
      (front ++ (Slot.written slots' ++ back)) := by
  induction each generalizing front with
  | nil => exact .refl _
  | @cons s s' later later' here _ ih =>
      obtain ⟨stop, swap⟩ := here
      have first := swap front (s.stop :: (Slot.written later ++ back))
      have rest := ih (front ++ (s'.tokens ++ [s'.stop]))
      rw [Slot.written_cons, Slot.written_cons]
      simp only [List.append_assoc, List.cons_append, List.nil_append, stop] at first rest ⊢
      exact first.trans rest

end Leaves

namespace TurnedCall

variable {o : Nat} {c : TurnedCall}

namespace Sound

theorem safeName_isName (sound : c.Sound verdicts) : Cast.IsName c.safeName := by
  obtain ⟨_, name, _⟩ := PrinterTable.standard_names sound.named
  obtain ⟨opens, closes⟩ := Head.noBracket fun g first =>
    Head.bracket_start (name.2 g (List.mem_of_mem_head? first))
  exact ⟨sound.ident, opens, closes⟩

theorem safeName_unlisted (sound : c.Sound verdicts) :
    PrinterTable.standard.find? c.safeName.lexeme = none := by
  have safe : ∀ entry ∈ PrinterTable.standard,
      PrinterTable.standard.find? entry.2.safeName = none := by
    decide
  obtain ⟨front, back, parts, _⟩ := List.lookup_eq_some_iff.1 sound.named
  exact safe (c.call.name.lexeme, c.call.printer) (List.mem_reverse.1 (by simp [parts]))

/-- The safe call in place of the call with its arguments as they became. -/
theorem exists_patch (sound : c.Sound verdicts)
    (filled : ∀ a ∈ c.values, ∀ d, Slot.Fills d a.argument.code → Slot.Fills d a.tokens) :
    ∃ p : Patch, p.name = c.call.name ∧ p.name' = c.safeName ∧ p.opening = c.call.opening ∧
      p.Between c.turnedSlots (c.safeSlots o) :=
  ⟨.ofSlots c.call.name c.safeName c.call.opening c.turnedSlots (c.safeSlots o) sound.ident
    sound.ident rfl sound.opens (sound.turned_listed filled) (sound.safe_listed filled)
    (by rw [safeSlots_closing, sound.turned_closing]), rfl, rfl, rfl, Patch.ofSlots_between⟩

/-- The new name is none of the brackets either. -/
theorem safeName_bracketed (sound : c.Sound verdicts) : c.safeName.Bracketed := by
  have name := sound.safeName_isName
  have ident := name.ident
  refine ⟨fun opens => ?_, fun closes => ?_, fun string => ?_⟩
  · rw [ident] at opens
    cases opens
  · have closer : Text.ofString ")" ∈ Cast.closers := by decide
    rw [← closes] at closer
    exact absurd closer name.closes
  · rw [ident] at string
    cases string

theorem turned_filled (sound : c.Sound verdicts)
    (turned : ∀ a ∈ c.values, Turned o verdicts a.argument.code a.tokens) :
    ∀ s ∈ c.turnedSlots, ¬ s.IsBlank := by
  intro s member
  rcases mem_turnedSlots member with ⟨a, listed, rfl⟩ | rfl
  · have filled := sound.filled a.slot (slot_mem listed)
    simp only [Slot.IsBlank, not_forall] at filled ⊢
    obtain ⟨t, inside, kind⟩ := filled
    obtain ⟨u, inside, kind⟩ := (turned a listed).visible ⟨t, inside, kind⟩
    exact ⟨u, inside, kind⟩
  · exact sound.filled _ (List.mem_append_right _ List.mem_cons_self)

/-- The tokens of the call when the calls in it are turned, and those of the safe call, are spelled as
their kinds demand. -/
theorem bracketed (sound : c.Sound verdicts)
    (turned : ∀ a ∈ c.values, Turned o verdicts a.argument.code a.tokens)
    (known : ∀ t ∈ c.old, t.Bracketed) :
    (∀ t ∈ Slot.written c.turnedSlots, t.Bracketed) ∧ ∀ t ∈ c.list o, t.Bracketed := by
  have value {a : TurnedArgument} (member : a ∈ c.values) : ∀ t ∈ a.tokens, t.Bracketed := by
    intro t inside
    cases (turned a member).comes t inside with
    | kept listed _ => exact known t ((value_mem_old member).1 listed)
    | added idle => exact (idle.beyond o).bracketed
    | renamed other _ => exact other.safeName_bracketed
  refine ⟨fun t member => ?_, fun t member => ?_⟩
  · obtain ⟨s, listed, inside⟩ := List.mem_flatMap.1 member
    rcases mem_turnedSlots listed with ⟨a, here, rfl⟩ | rfl
    · rcases List.mem_append.1 inside with inside | stop
      · exact value here t inside
      · exact known t (List.mem_singleton.1 stop ▸ (value_mem_old here).2)
    · rcases List.mem_append.1 inside with inside | stop
      · exact known t (c.literal_mem_old.1 inside)
      · exact known t (List.mem_singleton.1 stop ▸ c.literal_mem_old.2)
  · rcases sound.mem_list member with ⟨a, listed, inside⟩ | ⟨inside, _⟩ | ⟨word, idle, rfl⟩
    · exact value listed t inside
    · exact known t inside
    · exact (idle.beyond o).bracketed

theorem own_goes (sound : c.Sound verdicts) (checked : ∀ v ∈ verdicts, ∃ c, v = Call.check c source)
    {slots : List Slot} (listed : Slot.Listed 0 slots) (filled : ∀ s ∈ slots, ¬ s.IsBlank)
    (previous : Option Token) (back : List Token) :
    (Mention.classify c.call.printer previous c.call.name
      (c.call.opening :: (Slot.written slots ++ back))).stays verdicts = false := by
  have solid : c.call.opening.isComment = false := by simp [Token.isComment, sound.opens]
  unfold Mention.classify
  rw [List.dropWhile_cons_of_neg (by simp [solid])]
  dsimp only
  rw [if_neg (by simp [sound.opens])]
  split
  · rfl
  · have call : Mention.readCall c.call.printer c.call.name c.call.opening
        (Slot.written slots ++ back) = .call ⟨c.call.printer, c.call.name, c.call.opening,
          Slot.closing c.call.opening slots, Slot.arguments slots⟩ :=
      Mention.readCall_eq_call_iff.2
        ⟨slots, back, rfl, listed, fun s member blank => absurd blank (filled s member), rfl⟩
    rw [call]
    obtain ⟨own, same⟩ := checked _ sound.listed
    have eligible := sound.eligible
    rw [same] at eligible
    have turned := Call.safeEdits?_isSome_iff.2 ⟨_, eligible⟩
    rw [← same] at turned
    refine List.all_eq_false.2 ⟨c.verdict, sound.listed, ?_⟩
    simp [TurnedCall.call, turned]

theorem even (sound : c.Sound verdicts)
    (turned : ∀ a ∈ c.values, Turned o verdicts a.argument.code a.tokens)
    (known : ∀ t ∈ c.old, t.Spelled ∧ t.Bracketed) {p : Patch}
    (between : p.Between c.turnedSlots (c.safeSlots o)) (spelled : p.Spelled) :
    (p.swap spelled).Even := by
  have old := between.old
  have new := between.new
  rw [Patch.old, List.cons_inj_right, List.cons_inj_right] at old
  rw [Patch.new, List.cons_inj_right, List.cons_inj_right] at new
  have inner : Slot.Within 0 p.inner := by
    have parts : (p.inner ++ [p.closing]).dropLast = p.inner := List.dropLast_concat
    rw [← parts, old]
    exact between.listed.within
  have inner' : Slot.Within 0 p.inner' := by
    have parts : (p.inner' ++ [p.closing]).dropLast = p.inner' := List.dropLast_concat
    rw [← parts, new]
    exact between.listed'.within
  obtain ⟨before, behind⟩ := sound.bracketed turned fun t member => (known t member).2
  have brackets := sound.safe_brackets (o := o) (fun a member => (turned a member).fills) known
  rw [← old, ← new, List.filter_append, List.filter_append] at brackets
  refine Cast.Swap.even_of_brackets inner.code inner'.code
    (fun t member => before t ?_) (fun t member => behind t ?_) ?_
  · rw [← old]
    exact List.mem_append_left _ (List.mem_of_mem_filter member)
  · rw [← c.safeSlots_written, ← new]
    exact List.mem_append_left _ (List.mem_of_mem_filter member)
  · have same := congrArg (List.filter (!·.isComment)) (List.append_cancel_right brackets)
    simpa [Patch.swap, Token.code, Bool.and_comm] using same

/-- Turning the call takes it out of those that are found, and leaves the others. -/
theorem leaves (sound : c.Sound verdicts) (checked : ∀ v ∈ verdicts, ∃ c, v = Call.check c source)
    (turned : ∀ a ∈ c.values, Turned o verdicts a.argument.code a.tokens)
    (known : ∀ t ∈ c.old, t.Spelled ∧ t.Bracketed) (front back : List Token) :
    Leaves source verdicts
      (front ++ (c.call.name :: c.call.opening :: (Slot.written c.turnedSlots ++ back)))
      (front ++ (c.new o ++ back)) := by
  have filled : ∀ a ∈ c.values, ∀ d, Slot.Fills d a.argument.code → Slot.Fills d a.tokens :=
    fun a member => (turned a member).fills
  obtain ⟨p, name, name', opening, between⟩ := sound.exists_patch (o := o) filled
  obtain ⟨ms, ms', old, new, like, _⟩ := Mention.scan_patch (p := p) .standard none front back
  have spelled : p.Spelled := by
    refine ⟨name ▸ (known c.call.name (by simp [TurnedCall.old])).1.name sound.ident,
      name' ▸ sound.safeName_isName, ?_⟩
    rw [opening]
    exact (known c.call.opening (by simp [TurnedCall.old])).1.opening sound.opens
  have even := sound.even turned known between spelled
  have around : List.Forall₂ (Places.same.Mentions (Call.Stays source)) ms ms' := by
    refine Places.mentions_imp (fun c c' patched => ?_) like
    exact ⟨patched.name, patched.check_same spelled even⟩
  have solid : c.call.name.isComment = false := by simp [Token.isComment, sound.ident]
  have goes := sound.own_goes checked between.listed (sound.turned_filled turned)
    (Mention.previousOf none front) back
  have inner : (c.safeSlots o).flatMap (fun s => Mention.scan .standard none s.tokens) =
      c.turnedSlots.flatMap fun s => Mention.scan .standard none s.tokens := by
    refine sound.safe_flatMap _ (fun _ => Mention.scan_idle) (fun a _ => ?_) ?_
    · rw [Mention.scan, if_neg (by simp [Token.beyond, Word.openBrace])]
      refine Mention.scan_previous ?_ _
      rfl
    · have scanned := @Mention.scan_unlisted .standard _ (fun t member ident => by
        rw [sound.strings t member] at ident
        cases ident) none []
      rwa [List.append_nil] at scanned
  rw [between.old, name, opening] at old
  rw [between.new, name', opening] at new
  simp only [List.cons_append] at old new
  rw [Leaves, TurnedCall.new, ← c.safeSlots_written, old, List.cons_append, List.cons_append, new,
    Mention.scan_other sound.safeName_unlisted sound.opens between.listed', inner,
    safeSlots_closing, Mention.scan, if_pos sound.ident, sound.named]
  dsimp only
  rw [solid, if_neg Bool.false_ne_true, Mention.scan_list .standard sound.opens between.listed,
    sound.turned_closing, List.filter_append, List.filter_append, List.filter_cons_of_neg (by simp [goes])]
  refine List.rel_append (List.rel_filter (fun m m' same => ?_) around)
    (Places.mentions_refl fun c _ => c.stays_refl source)
  simp only [Mention.stays_congr same]

end Sound

end TurnedCall

/-- Turning calls takes them out of those that are found, and leaves the others. -/
theorem Turned.leaves {o : Nat} {tokens tokens' : List Token}
    (turned : Turned o verdicts tokens tokens')
    (checked : ∀ v ∈ verdicts, ∃ c, v = Call.check c source)
    (known : ∀ t ∈ tokens, t.Spelled ∧ t.Bracketed) (front back : List Token) :
    Leaves source verdicts (front ++ (tokens ++ back)) (front ++ (tokens' ++ back)) := by
  induction turned generalizing front back with
  | nil => exact .refl _
  | @keep t rest rest' _ _ ih =>
      have later := ih (fun u member => known u (List.mem_cons_of_mem t member)) (front ++ [t]) back
      simpa only [List.append_assoc, List.cons_append, List.nil_append] using later
  | @call c rest rest' sound fixed trailing _ ihFixed ihTrailing ih =>
      have own : ∀ t ∈ c.old, t.Spelled ∧ t.Bracketed :=
        fun t member => known t (List.mem_append_left _ member)
      have inner : ∀ a ∈ c.values, ∀ front back, Leaves source verdicts
          (front ++ (a.argument.code ++ back)) (front ++ (a.tokens ++ back)) := fun a value =>
        TurnedCall.forall_values (P := fun a => (∀ t ∈ a.argument.code, t.Spelled ∧ t.Bracketed) →
            ∀ front back, Leaves source verdicts (front ++ (a.argument.code ++ back))
              (front ++ (a.tokens ++ back)))
          ihFixed ihTrailing a value fun t member => own t ((TurnedCall.value_mem_old value).1 member)
      -- the calls in the arguments, the call itself, and what is behind it
      have arguments := Leaves.written (TurnedCall.forall₂_slots (c := c)
        (fun a value => ⟨rfl, inner a value⟩) ⟨rfl, fun _ _ => .refl _⟩)
        (front ++ [c.call.name, c.call.opening]) (rest ++ back)
      have call := sound.leaves (o := o) checked (TurnedCall.forall_values
        (P := fun a => Turned o verdicts a.argument.code a.tokens) fixed trailing) own front (rest ++ back)
      have later := ih (fun u member => known u (List.mem_append_right _ member))
        (front ++ c.new o) back
      simp only [List.append_assoc, List.cons_append, List.nil_append, TurnedCall.old]
        at arguments call later ⊢
      exact (arguments.trans call).trans later

end FormatLint
