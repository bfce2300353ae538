import FormatLint.Proofs.Call.Patched
import FormatLint.Proofs.Revision.SafeEdits

/-!
Finding calls in a list of tokens and in another one in which one call is replaced. The mentions in a
call are its own and those in its slots: `Mention.scan_call`. If the new call mentions the same, then
the same is mentioned in both lists, up to the call that is replaced: `Mention.scan_step`.
-/

namespace FormatLint

namespace Patch

/-- The slots of one call written in place of those of another one. -/
def ofSlots (name name' opening : Token) (slots slots' : List Slot) (ident : name.kind = .ident)
    (ident' : name'.kind = .ident) (span : name'.span = name.span)
    (opens : opening.kind = .openParen) (listed : Slot.Listed 0 slots)
    (listed' : Slot.Listed 0 slots')
    (closing : Slot.closing opening slots' = Slot.closing opening slots) : Patch where
  name
  name'
  opening
  inner := (Slot.written slots).dropLast
  inner' := (Slot.written slots').dropLast
  closing := Slot.closing opening slots
  ident
  ident'
  span
  opens
  closes := by
    obtain ⟨_, last, whole, closes, _⟩ := listed.written_eq
    obtain ⟨_, same, _⟩ := listed.closing_eq opening
    rw [whole] at same
    rwa [← List.singleton_inj.1 (List.append_inj' same rfl).2]
  fills := by
    obtain ⟨_, whole, _⟩ := listed.closing_eq opening
    have fills := listed.fills_written
    rw [whole] at fills ⊢
    rwa [List.dropLast_concat]
  fills' := by
    obtain ⟨_, whole, _⟩ := listed'.closing_eq opening
    have fills := listed'.fills_written
    rw [whole] at fills ⊢
    rwa [List.dropLast_concat, ← closing]

/-- The patch replaces the slots by the other ones. -/
structure Between (p : Patch) (slots slots' : List Slot) : Prop where
  listed : Slot.Listed 0 slots
  listed' : Slot.Listed 0 slots'
  old : p.old = p.name :: p.opening :: Slot.written slots
  new : p.new = p.name' :: p.opening :: Slot.written slots'
  closing : Slot.closing p.opening slots = p.closing
  closing' : Slot.closing p.opening slots' = p.closing

theorem ofSlots_between {name name' opening : Token} {slots slots' : List Slot}
    {ident : name.kind = .ident} {ident' : name'.kind = .ident} {span : name'.span = name.span}
    {opens : opening.kind = .openParen} {listed : Slot.Listed 0 slots}
    {listed' : Slot.Listed 0 slots'}
    {closing : Slot.closing opening slots' = Slot.closing opening slots} :
    (ofSlots name name' opening slots slots' ident ident' span opens listed listed'
      closing).Between slots slots' := by
  obtain ⟨_, whole, _⟩ := listed.closing_eq opening
  obtain ⟨_, whole', _⟩ := listed'.closing_eq opening
  refine ⟨listed, listed', ?_, ?_, rfl, closing⟩
  · rw [Patch.old, ofSlots]
    dsimp only
    rw [whole, List.dropLast_concat]
  · rw [Patch.new, ofSlots]
    dsimp only
    rw [whole', List.dropLast_concat, closing]

end Patch

namespace Mention

variable {table : PrinterTable} {printer : Printer} {name opening : Token} {slots : List Slot}

/-- The mentions behind the name of a call: those in its slots, and those behind it. -/
theorem scan_list (table : PrinterTable) (opens : opening.kind = .openParen)
    (listed : Slot.Listed 0 slots) (previous : Option Token) (back : List Token) :
    scan table previous (opening :: (Slot.written slots ++ back)) =
      slots.flatMap (fun s => scan table none s.tokens) ++
        scan table (some (Slot.closing opening slots)) back := by
  have noIdent : opening.kind ≠ .ident := by simp [opens]
  have noComment : opening.isComment = false := by simp [Token.isComment, opens]
  have free : (some opening).any declares = false := by
    simp [declares, Token.isPunct, opens]
  rw [scan, if_neg noIdent]
  simp only [noComment, Bool.false_eq_true, if_false]
  exact scan_written listed (some opening) free opening back

/-- The mentions in a call of a printer: its own first. -/
theorem scan_call {previous : Option Token} (ident : name.kind = .ident)
    (named : table.find? name.lexeme = some printer)
    (free : previous.any declares = false) (opens : opening.kind = .openParen)
    (listed : Slot.Listed 0 slots) (back : List Token) :
    scan table previous (name :: opening :: (Slot.written slots ++ back)) =
      readCall printer name opening (Slot.written slots ++ back) ::
        (slots.flatMap (fun s => scan table none s.tokens) ++
          scan table (some (Slot.closing opening slots)) back) := by
  have noComment : name.isComment = false := by simp [Token.isComment, ident]
  have solid : opening.isComment = false := by simp [Token.isComment, opens]
  have here : classify printer previous name (opening :: (Slot.written slots ++ back)) =
      readCall printer name opening (Slot.written slots ++ back) := by
    unfold classify
    rw [List.dropWhile_cons_of_neg (by simp [solid])]
    simp [opens, free]
  rw [scan, if_pos ident, named]
  simp only [noComment, Bool.false_eq_true, if_false, here]
  rw [scan_list table opens listed]

theorem scan_other {previous : Option Token} (other : table.find? name.lexeme = none)
    (opens : opening.kind = .openParen)
    (listed : Slot.Listed 0 slots) (back : List Token) :
    scan table previous (name :: opening :: (Slot.written slots ++ back)) =
      slots.flatMap (fun s => scan table none s.tokens) ++
        scan table (some (Slot.closing opening slots)) back := by
  rw [scan, other, scan_list table opens listed]
  simp

end Mention

/-- What becomes of the calls in a list of tokens when one of them is replaced by a call with the
same mentions in it: it becomes the new call, those in front of it may have it replaced in their
arguments, and all others stay. -/
inductive Patch.Step (p : Patch) (front back : List Token) (own own' : Call) : Call → Call → Prop
  | own : Step p front back own own' own own'
  | around {c c' : Call} (begins : c.name ∈ front) (patched : Call.Patched p c c') :
      Step p front back own own' c c'
  | apart {c : Call} (begins : c.name ∈ p.old.tail ++ back) : Step p front back own own' c c

namespace Mention

variable {table : PrinterTable} {printer : Printer} {slots slots' : List Slot} {p : Patch}

/-- Replacing a call by one that mentions the same changes no mention but its own and those that it
stands in. -/
theorem scan_step (table : PrinterTable) (between : p.Between slots slots') (same : p.name' = p.name)
    (named : table.find? p.name.lexeme = some printer) (proper : Slot.Proper slots)
    (proper' : Slot.Proper slots')
    (inner : slots'.flatMap (fun s => scan table none s.tokens) =
      slots.flatMap fun s => scan table none s.tokens) (front back : List Token)
    (free : (previousOf none front).any declares = false) :
    List.Forall₂ (Places.same.Mentions (p.Step front back
        ⟨printer, p.name, p.opening, p.closing, Slot.arguments slots⟩
        ⟨printer, p.name, p.opening, p.closing, Slot.arguments slots'⟩))
      (scan table none (front ++ (p.old ++ back))) (scan table none (front ++ (p.new ++ back))) := by
  obtain ⟨ms, ms', old, new, like, names⟩ := scan_patch (p := p) table none front back
  have own : readCall printer p.name p.opening (Slot.written slots ++ back) =
      .call ⟨printer, p.name, p.opening, p.closing, Slot.arguments slots⟩ :=
    readCall_eq_call_iff.2 ⟨slots, back, rfl, between.listed, proper, by rw [between.closing]⟩
  have own' : readCall printer p.name p.opening (Slot.written slots' ++ back) =
      .call ⟨printer, p.name, p.opening, p.closing, Slot.arguments slots'⟩ :=
    readCall_eq_call_iff.2 ⟨slots', back, rfl, between.listed', proper', by rw [between.closing']⟩
  rw [old, new, between.old, between.new, same]
  simp only [List.cons_append]
  rw [scan_call p.ident named free p.opens between.listed, scan_call p.ident named free p.opens
    between.listed', own, own', inner, between.closing, between.closing']
  refine List.rel_append ?_ (.cons (.call .own) (Places.mentions_refl fun c found => .apart ?_))
  · have front := (List.forall₂_and_left (p := (· ∈ ms)) _ _).2 ⟨fun _ member => member, like⟩
    refine front.imp ?_
    rintro m m' ⟨begins, _ | _ | patched | d⟩
    · exact .value
    · exact .declared
    · exact .call (.around (names _ begins) patched)
    · exact .malformed d
  · rw [between.old, List.tail_cons]
    rcases List.mem_append.1 found with found | found
    · obtain ⟨s, listed, inside⟩ := List.mem_flatMap.1 found
      have member := Slot.subset_written listed (scan_name inside)
      simp [member]
    · simp [scan_name found]

end Mention

end FormatLint
