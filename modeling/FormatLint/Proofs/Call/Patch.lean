import FormatLint.Proofs.Analysis.Like

/-!
Writing one call in place of another. What stands around the call is mentioned as before, since the
new call opens and closes as many parentheses: `Mention.scan_patch`. What stands in the slots of an
argument list is mentioned whatever follows the list: `Mention.scan_written`.
-/

namespace FormatLint

/-- A call and another one to write in its place: identifiers in the same place, and behind them
argument lists with the same first and last parentheses. -/
structure Patch where
  name : Token
  name' : Token
  opening : Token
  inner : List Token
  inner' : List Token
  closing : Token
  ident : name.kind = .ident
  ident' : name'.kind = .ident
  span : name'.span = name.span
  opens : opening.kind = .openParen
  closes : closing.kind = .closeParen
  fills : Slot.Fills 1 (inner ++ [closing])
  fills' : Slot.Fills 1 (inner' ++ [closing])

namespace Patch

def old (p : Patch) : List Token := p.name :: p.opening :: (p.inner ++ [p.closing])

def new (p : Patch) : List Token := p.name' :: p.opening :: (p.inner' ++ [p.closing])

/-- The second list is the first one with the new call in place of the old one. -/
def Swaps (p : Patch) (tokens tokens' : List Token) : Prop :=
  ∃ front back, tokens = front ++ (p.old ++ back) ∧ tokens' = front ++ (p.new ++ back)

variable {p : Patch}

theorem fills_call {name opening : Token} {inner : List Token} (ident : name.kind = .ident)
    (opens : opening.kind = .openParen) (fills : Slot.Fills 1 inner) :
    Slot.Fills 0 (name :: opening :: inner) := by
  refine Slot.fills_cons.2 ⟨by simp [Slot.endsStatement, Token.isPunct, ident], by simp [ident], ?_⟩
  have depth : Slot.depthAfter 0 name = 0 := by simp [Slot.depthAfter, ident]
  rw [depth]
  refine Slot.fills_cons.2 ⟨by simp [Slot.endsStatement, Token.isPunct, opens], by simp [opens], ?_⟩
  have depth : Slot.depthAfter 0 opening = 1 := by simp [Slot.depthAfter, opens]
  rwa [depth]

theorem fills_old (p : Patch) : Slot.Fills 0 p.old := fills_call p.ident p.opens p.fills

theorem fills_new (p : Patch) : Slot.Fills 0 p.new := fills_call p.ident' p.opens p.fills'

end Patch

namespace Slot

variable {p : Patch}

/-- The call is swapped in the slot, or the slot stays what it is. -/
structure Patched (p : Patch) (s s' : Slot) : Prop where
  stop : s'.stop = s.stop
  tokens : s'.tokens = s.tokens ∨ p.Swaps s.tokens s'.tokens

theorem patched_refl (p : Patch) (slots : List Slot) : List.Forall₂ (Patched p) slots slots :=
  List.forall₂_same.2 fun _ _ => ⟨rfl, .inl rfl⟩

theorem patched_consFirst (t : Token) {slots slots' : List Slot}
    (like : List.Forall₂ (Patched p) slots slots') :
    List.Forall₂ (Patched p) (consFirst t slots) (consFirst t slots') := by
  cases like with
  | nil => exact .nil
  | @cons s s' _ _ first later =>
      refine .cons ⟨first.stop, ?_⟩ later
      rcases first.tokens with same | ⟨front, back, whole, whole'⟩
      · exact .inl (congrArg (t :: ·) same)
      · exact .inr ⟨t :: front, back, congrArg (t :: ·) whole, congrArg (t :: ·) whole'⟩

theorem cut_patch (d : Nat) (front back : List Token) :
    Option.Rel (List.Forall₂ (Patched p)) (cut d (front ++ (p.old ++ back)))
      (cut d (front ++ (p.new ++ back))) := by
  induction front generalizing d with
  | nil =>
      have old := cut_append_inner d back p.fills_old
      have new := cut_append_inner d back p.fills_new
      rw [Nat.add_zero] at old new
      rw [List.nil_append, List.nil_append, old, new]
      cases rest : cut d back with
      | none => exact .none
      | some slots =>
          cases slots with
          | nil => exact absurd rfl (cut_ne_nil rest)
          | cons s later =>
              rw [Option.map_some, Option.map_some, foldr_consFirst, foldr_consFirst]
              exact .some (.cons ⟨rfl, .inr ⟨[], s.tokens, rfl, rfl⟩⟩ (patched_refl p later))
  | cons t front ih =>
      rw [List.cons_append, List.cons_append, cut, cut]
      split
      · exact .none
      · split
        · exact .some (patched_refl p _)
        · split
          · have later := ih 0
            generalize cut 0 (front ++ (p.old ++ back)) = slots at later
            generalize cut 0 (front ++ (p.new ++ back)) = slots' at later
            cases later with
            | none => exact .none
            | some later => exact .some (.cons ⟨rfl, .inl rfl⟩ later)
          · have later := ih (depthAfter d t)
            generalize cut (depthAfter d t) (front ++ (p.old ++ back)) = slots at later
            generalize cut (depthAfter d t) (front ++ (p.new ++ back)) = slots' at later
            cases later with
            | none => exact .none
            | some later => exact .some (patched_consFirst t later)

variable {s s' : Slot}

theorem Patched.trimmed (patched : Patched p s s') :
    s'.trimmed = s.trimmed ∨ p.Swaps s.trimmed s'.trimmed := by
  rcases patched.tokens with same | ⟨front, back, whole, whole'⟩
  · exact .inl (by rw [Slot.trimmed, same, Slot.trimmed])
  · have closes : p.closing.kind ≠ .comment := by simp [p.closes]
    have name : p.name.kind ≠ .comment := by simp [p.ident]
    have name' : p.name'.kind ≠ .comment := by simp [p.ident']
    have old := Token.trimComments_between front back (p.opening :: p.inner) name closes
    have new := Token.trimComments_between front back (p.opening :: p.inner') name' closes
    refine .inr ⟨front.dropWhile Token.isComment,
      (back.reverse.dropWhile Token.isComment).reverse, ?_, ?_⟩
    · rw [Slot.trimmed, whole]
      simpa [Patch.old] using old
    · rw [Slot.trimmed, whole']
      simpa [Patch.new] using new

theorem Patched.trimmed_nil_iff (patched : Patched p s s') : s'.trimmed = [] ↔ s.trimmed = [] := by
  rcases patched.trimmed with same | ⟨front, back, whole, whole'⟩
  · rw [same]
  · simp [whole, whole', Patch.old, Patch.new]

end Slot

def Argument.Patched (p : Patch) (a a' : Argument) : Prop := a' = a ∨ p.Swaps a.tokens a'.tokens

/-- A call in whose arguments one call is swapped. -/
structure Call.Patched (p : Patch) (c c' : Call) : Prop where
  printer : c'.printer = c.printer
  name : c'.name = c.name
  opening : c'.opening = c.opening
  closing : c'.closing = c.closing
  arguments : List.Forall₂ (Argument.Patched p) c.arguments c'.arguments

namespace Slot

variable {p : Patch} {slots slots' : List Slot}

theorem areBare_patched (like : List.Forall₂ (Patched p) slots slots') :
    areBare slots' = areBare slots := by
  cases like with
  | nil => rfl
  | cons first later =>
      cases later with
      | nil => simp only [areBare, first.trimmed_nil_iff]
      | cons => rfl

theorem firstEmpty?_patched (before : Token) (like : List.Forall₂ (Patched p) slots slots') :
    firstEmpty? before slots' = firstEmpty? before slots := by
  induction like generalizing before with
  | nil => rfl
  | @cons s s' _ _ here _ ih =>
      rw [firstEmpty?, firstEmpty?, here.stop, ih]
      simp only [here.trimmed_nil_iff]

theorem stop_patched (like : List.Forall₂ (Patched p) slots slots') :
    slots'.getLast?.map (·.stop) = slots.getLast?.map (·.stop) := by
  have last := forall₂_getLast? like
  generalize slots.getLast? = l at last
  generalize slots'.getLast? = l' at last
  cases last with
  | none => rfl
  | some last => rw [Option.map_some, Option.map_some, last.stop]

theorem arguments_patched (like : List.Forall₂ (Patched p) slots slots') :
    List.Forall₂ (Argument.Patched p)
      (slots.filterMap fun s => Argument.ofTokens? s.trimmed)
      (slots'.filterMap fun s => Argument.ofTokens? s.trimmed) := by
  refine List.rel_filterMap ?_ like
  intro s s' patched
  unfold Argument.ofTokens?
  dsimp only
  by_cases blank : s.trimmed = []
  · rw [dif_neg (by simpa using blank), dif_neg (by simpa using patched.trimmed_nil_iff.2 blank)]
    exact .none
  · rw [dif_pos blank, dif_pos fun other => blank (patched.trimmed_nil_iff.1 other)]
    refine .some ?_
    rcases patched.trimmed with same | swaps
    · exact .inl (by simp [same])
    · exact .inr swaps

end Slot

namespace Mention

variable {p : Patch} {table : PrinterTable} {printer : Printer}

theorem readCall_patch (name opening : Token) (front back : List Token) :
    Places.same.Mentions (Call.Patched p)
      (readCall printer name opening (front ++ (p.old ++ back)))
      (readCall printer name opening (front ++ (p.new ++ back))) := by
  have slots := Slot.cut_patch (p := p) 0 front back
  unfold readCall
  generalize Slot.cut 0 (front ++ (p.old ++ back)) = found at slots
  generalize Slot.cut 0 (front ++ (p.new ++ back)) = found' at slots
  cases slots with
  | none => exact .malformed (Places.diagnostics_refl _)
  | @some slots slots' like =>
      dsimp only
      rw [Slot.areBare_patched like, Slot.firstEmpty?_patched opening like, Slot.stop_patched like]
      split
      · exact .call ⟨rfl, rfl, rfl, rfl, .nil⟩
      · split
        · exact .malformed (Places.diagnostics_refl _)
        · exact .call ⟨rfl, rfl, rfl, rfl, Slot.arguments_patched like⟩

theorem classify_patch (previous : Option Token) (name : Token) (front back : List Token) :
    Places.same.Mentions (Call.Patched p)
      (classify printer previous name (front ++ (p.old ++ back)))
      (classify printer previous name (front ++ (p.new ++ back))) := by
  have old : (p.old ++ back).dropWhile Token.isComment = p.old ++ back :=
    List.dropWhile_cons_of_neg (by simp [Token.isComment, p.ident])
  have new : (p.new ++ back).dropWhile Token.isComment = p.new ++ back :=
    List.dropWhile_cons_of_neg (by simp [Token.isComment, p.ident'])
  unfold classify
  rw [List.dropWhile_append, old, List.dropWhile_append, new]
  cases front.dropWhile Token.isComment with
  | nil =>
      have first : p.name.kind ≠ .openParen := by simp [p.ident]
      have first' : p.name'.kind ≠ .openParen := by simp [p.ident']
      simp only [List.isEmpty_nil, if_true, Patch.old, Patch.new, List.cons_append]
      rw [if_pos first, if_pos first']
      exact .value
  | cons next later =>
      simp only [List.isEmpty_cons, Bool.false_eq_true, if_false, List.cons_append]
      split
      · exact .value
      · split
        · exact .declared
        · exact readCall_patch name next later back

/-- The last token behind the given one that is no comment. -/
def previousOf (previous : Option Token) (front : List Token) : Option Token :=
  (Token.code front).getLast?.or previous

theorem previousOf_cons (previous : Option Token) (t : Token) (front : List Token) :
    previousOf previous (t :: front) =
      previousOf (if t.isComment then previous else some t) front := by
  unfold previousOf
  cases comment : t.isComment with
  | true => simp [Token.code, comment]
  | false =>
      simp only [Token.code, List.filter_cons, comment, Bool.not_false, if_true,
        Bool.false_eq_true, if_false]
      cases rest : front.filter (!·.isComment) with
      | nil => rfl
      | cons next rest => rw [List.getLast?_cons_cons, List.getLast?_cons]; rfl

theorem readCall_name {name opening : Token} {rest : List Token} {c : Call}
    (read : readCall printer name opening rest = .call c) : c.name = name := by
  obtain ⟨_, _, _, _, _, rfl⟩ := readCall_eq_call_iff.1 read
  rfl

theorem classify_name {previous : Option Token} {name : Token} {rest : List Token} {c : Call}
    (read : classify printer previous name rest = .call c) : c.name = name := by
  unfold classify at read
  split at read
  · cases read
  · split at read
    · cases read
    · split at read
      · cases read
      · exact readCall_name read

theorem scan_name {previous : Option Token} {tokens : List Token} {c : Call}
    (found : .call c ∈ scan table previous tokens) : c.name ∈ tokens := by
  induction tokens generalizing previous with
  | nil => cases found
  | cons t rest ih =>
      rw [scan] at found
      split at found
      · split at found
        · rcases List.mem_cons.1 found with here | later
          · rw [classify_name here.symm]
            exact List.mem_cons_self
          · exact List.mem_cons_of_mem t (ih later)
        · exact List.mem_cons_of_mem t (ih found)
      · exact List.mem_cons_of_mem t (ih found)

/-- What stands in front of the call is mentioned as before. -/
theorem scan_patch (table : PrinterTable) (previous : Option Token) (front back : List Token) :
    ∃ ms ms', scan table previous (front ++ (p.old ++ back)) =
        ms ++ scan table (previousOf previous front) (p.old ++ back) ∧
      scan table previous (front ++ (p.new ++ back)) =
        ms' ++ scan table (previousOf previous front) (p.new ++ back) ∧
      List.Forall₂ (Places.same.Mentions (Call.Patched p)) ms ms' ∧
      ∀ c, .call c ∈ ms → c.name ∈ front := by
  induction front generalizing previous with
  | nil => exact ⟨[], [], rfl, rfl, .nil, fun c found => absurd found List.not_mem_nil⟩
  | cons t front ih =>
      obtain ⟨ms, ms', old, new, like, names⟩ := ih (if t.isComment then previous else some t)
      have later : ∀ c, .call c ∈ ms → c.name ∈ t :: front :=
        fun c found => List.mem_cons_of_mem t (names c found)
      rw [List.cons_append, List.cons_append, scan, scan, old, new, previousOf_cons]
      split
      · split
        · refine ⟨_, _, (List.cons_append ..).symm, (List.cons_append ..).symm,
            .cons (classify_patch previous t front back) like, ?_⟩
          intro c found
          rcases List.mem_cons.1 found with here | found
          · rw [classify_name here.symm]
            exact List.mem_cons_self
          · exact later c found
        · exact ⟨ms, ms', rfl, rfl, like, later⟩
      · exact ⟨ms, ms', rfl, rfl, like, later⟩

end Mention

namespace Slot

/-- What follows the parenthesis that closes a list does not count. -/
theorem cut_enclosed {d e : Nat} {tokens : List Token} (fills : Fills e tokens) (less : d < e)
    (rest : List Token) : cut d (tokens ++ rest) = cut d tokens := by
  induction tokens generalizing d e with
  | nil =>
      have zero := fills_nil.1 fills
      omega
  | cons t tokens ih =>
      obtain ⟨_, _, later⟩ := fills_cons.1 fills
      rw [List.cons_append, cut, cut]
      split
      · rfl
      · split
        · rfl
        · rename_i noClose
          split
          · rename_i comma
            have same : depthAfter e t = e := by simp [depthAfter, comma.2]
            rw [same] at later
            rw [ih later (by omega)]
          · rw [ih later]
            unfold depthAfter
            split
            · omega
            · rename_i closes
              have positive : d ≠ 0 := fun zero => noClose ⟨zero, closes⟩
              omega
            · exact less

theorem Fills.dropWhile {d : Nat} {tokens : List Token} (fills : Fills d tokens) :
    Fills d (tokens.dropWhile Token.isComment) := by
  induction tokens with
  | nil => exact fills
  | cons t tokens ih =>
      cases comment : t.isComment with
      | false => rwa [List.dropWhile_cons_of_neg (by simp [comment])]
      | true =>
          rw [List.dropWhile_cons_of_pos comment]
          obtain ⟨_, _, later⟩ := fills_cons.1 fills
          have same : depthAfter d t = d := by
            simp [depthAfter, Token.isComment_iff.1 comment]
          rw [same] at later
          exact ih later

theorem Fills.append {d e : Nat} {tokens rest : List Token} (fills : Fills d tokens)
    (behind : Fills e rest) : Fills (d + e) (tokens ++ rest) := by
  induction tokens generalizing d with
  | nil =>
      rw [fills_nil.1 fills, Nat.zero_add]
      exact behind
  | cons t tokens ih =>
      obtain ⟨continues, outer, later⟩ := fills_cons.1 fills
      refine fills_cons.2 ⟨continues, fun zero => outer (by omega), ?_⟩
      have depth : depthAfter (d + e) t = depthAfter d t + e := by
        unfold depthAfter
        split
        · omega
        · rename_i closes
          have positive : d ≠ 0 := fun zero => (outer zero).2 closes
          omega
        · rfl
      rw [depth]
      exact ih later

theorem Listed.fills_written {d : Nat} {slots : List Slot} (listed : Listed d slots) :
    Fills (d + 1) (written slots) := by
  have separator {t : Token} {rest : List Token} {e : Nat}
      (delimiter : t.kind = .comma ∨ t.kind = .closeParen)
      (behind : Fills (depthAfter (e + 1) t) rest) : Fills (e + 1) (t :: rest) :=
    fills_cons.2 ⟨endsStatement_of_kind delimiter, by omega, behind⟩
  induction listed with
  | last fills closes =>
      rw [written_cons]
      refine fills.append (separator (.inr closes) ?_)
      simp [depthAfter, closes, written, fills_nil]
  | next fills comma _ ih =>
      rw [written_cons]
      refine fills.append (separator (.inl comma) ?_)
      simpa [depthAfter, comma] using ih

end Slot

namespace Mention

variable {table : PrinterTable} {printer : Printer}

theorem classify_fills {d : Nat} {tokens : List Token} (fills : Slot.Fills d tokens)
    {separator : Token} (delimiter : separator.kind = .comma ∨ separator.kind = .closeParen)
    (previous : Option Token) (name : Token) (rest : List Token) :
    classify printer previous name (tokens ++ separator :: rest) =
      classify printer previous name tokens := by
  have inner := fills.dropWhile
  have solid : separator.isComment = false := by
    rcases delimiter with kind | kind <;> simp [Token.isComment, kind]
  unfold classify
  rw [List.dropWhile_append]
  generalize tokens.dropWhile Token.isComment = next at inner
  cases next with
  | nil =>
      rw [List.isEmpty_nil, if_pos rfl, List.dropWhile_cons_of_neg (by simp [solid])]
      have noOpening : separator.kind ≠ .openParen := by
        rcases delimiter with kind | kind <;> simp [kind]
      dsimp only
      rw [if_pos noOpening]
  | cons next later =>
      rw [List.isEmpty_cons, if_neg (by simp), List.cons_append]
      dsimp only
      split
      · rfl
      · rename_i opens
        obtain ⟨_, _, fills⟩ := Slot.fills_cons.1 inner
        have depth : Slot.depthAfter d next = d + 1 := by
          simp [Slot.depthAfter, Classical.not_not.1 opens]
        rw [depth] at fills
        rw [readCall, readCall, Slot.cut_enclosed fills (by omega)]

theorem scan_append_fills {d : Nat} {tokens : List Token} (fills : Slot.Fills d tokens)
    {separator : Token} (delimiter : separator.kind = .comma ∨ separator.kind = .closeParen)
    (previous : Option Token) (rest : List Token) :
    scan table previous (tokens ++ separator :: rest) =
      scan table previous tokens ++ scan table (some separator) rest := by
  induction tokens generalizing d previous with
  | nil =>
      have other : separator.kind ≠ .ident ∧ separator.isComment = false := by
        rcases delimiter with kind | kind <;> simp [Token.isComment, kind]
      rw [List.nil_append, scan]
      simp [other, scan]
  | cons t tokens ih =>
      obtain ⟨_, _, later⟩ := Slot.fills_cons.1 fills
      rw [List.cons_append, scan, scan, ih later]
      split
      · rename_i ident
        have same : Slot.depthAfter d t = d := by simp [Slot.depthAfter, ident]
        rw [same] at later
        split
        · rw [classify_fills later delimiter]
          rfl
        · rfl
      · rfl

/-- Only what declares a name matters of the token in front. -/
theorem scan_previous {previous previous' : Option Token}
    (same : previous'.any declares = previous.any declares) (tokens : List Token) :
    scan table previous' tokens = scan table previous tokens := by
  induction tokens generalizing previous previous' with
  | nil => rfl
  | cons t tokens ih =>
      have here (printer : Printer) :
          classify printer previous' t tokens = classify printer previous t tokens := by
        unfold classify
        rw [same]
      have later : scan table (if t.isComment then previous' else some t) tokens =
          scan table (if t.isComment then previous else some t) tokens := by
        split
        · exact ih same
        · rfl
      rw [scan, scan, later]
      split
      · split
        · rw [here]
        · rfl
      · rfl

theorem scan_unlisted {tokens : List Token}
    (unlisted : ∀ t ∈ tokens, t.kind = .ident → table.find? t.lexeme = none)
    (previous : Option Token) (rest : List Token) :
    scan table previous (tokens ++ rest) = scan table (previousOf previous tokens) rest := by
  induction tokens generalizing previous with
  | nil => simp [previousOf, Token.code]
  | cons t tokens ih =>
      rw [List.cons_append, scan, previousOf_cons,
        ih fun other member => unlisted other (List.mem_cons_of_mem t member)]
      split
      · rename_i ident
        rw [unlisted t List.mem_cons_self ident]
      · rfl

theorem declares_delimiter {t : Token} (delimiter : t.kind = .comma ∨ t.kind = .closeParen) :
    declares t = false := by
  rcases delimiter with kind | kind <;> simp [declares, Token.isPunct, kind]

/-- The mentions in an argument list are those in its slots, each taken by itself. -/
theorem scan_written {d : Nat} {slots : List Slot} (listed : Slot.Listed d slots)
    (previous : Option Token) (free : previous.any declares = false) (opening : Token)
    (rest : List Token) :
    scan table previous (Slot.written slots ++ rest) =
      slots.flatMap (fun s => scan table none s.tokens) ++
        scan table (some (Slot.closing opening slots)) rest := by
  have first (previous : Option Token) (free : previous.any declares = false)
      (tokens : List Token) : scan table previous tokens = scan table none tokens :=
    scan_previous (by simp [free]) tokens
  induction listed generalizing previous with
  | @last d s fills closes =>
      rw [Slot.written_cons, List.append_assoc, List.cons_append,
        scan_append_fills fills (.inr closes), first previous free]
      simp [Slot.written, Slot.closing]
  | @next d s later fills comma listed ih =>
      have free' : (some s.stop).any declares = false := declares_delimiter (.inl comma)
      have last : Slot.closing opening (s :: later) = Slot.closing opening later := by
        cases listed <;> simp [Slot.closing, List.getLast?_cons]
      rw [Slot.written_cons, List.append_assoc, List.cons_append,
        scan_append_fills fills (.inl comma), first previous free, ih _ free', last,
        List.flatMap_cons, List.append_assoc]

end Mention

end FormatLint
