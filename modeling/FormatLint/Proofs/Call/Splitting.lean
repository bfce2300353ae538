import FormatLint.Proofs.Call.Bare

/-!
An argument list by its places. It ends at the first place up to which as many parentheses are closed as
are opened, and it is cut at the commas that stand in no inner parentheses. `Mention.readCall_splits`
says that a call is read from the pieces between these places.
-/

namespace FormatLint

namespace ArgumentList

/-- From `o` to `c` as many parentheses are closed as are opened, and up to no place before. -/
structure ClosesAt (tokens : List Token) (o c : Nat) : Prop where
  order : o ≤ c
  inside : c < tokens.length
  level : Token.depth (tokens.extract o (c + 1)) = 0
  first : ∀ i, o ≤ i → i < c → Token.depth (tokens.extract o (i + 1)) ≠ 0

/-- No statement ends before the list is closed. -/
structure Reaches (tokens : List Token) (o c : Nat) : Prop extends ClosesAt tokens o c where
  continues : ∀ t ∈ tokens.extract o c, Slot.endsStatement t = false

/-- A comma inside one parenthesis from `o` on. -/
def isCut (tokens : List Token) (o i : Nat) : Bool :=
  tokens[i]?.any (·.kind = .comma) && Token.depth (tokens.extract o i) = 1

/-- The places of both parentheses and of the commas between them. -/
def separators (tokens : List Token) (o c : Nat) : List Nat :=
  o :: ((List.range' (o + 1) (c - (o + 1))).filter (isCut tokens o) ++ [c])

def gaps (tokens : List Token) (o c : Nat) : List (Nat × Nat) :=
  (separators tokens o c).zip (separators tokens o c).tail

/-- What stands between two separators, without the comments at its ends. -/
def piece (tokens : List Token) (gap : Nat × Nat) : List Token :=
  Token.trimComments (tokens.extract (gap.1 + 1) gap.2)

def pieces (tokens : List Token) (o c : Nat) : List (List Token) :=
  (gaps tokens o c).map (piece tokens)

/-- What the name is read as that stands in front of the parenthesis at `o`. -/
inductive Splits (printer : Printer) (name : Token) (tokens : List Token) (o : Nat) : Mention → Prop
  | unbalanced {opening : Token} (begins : tokens[o]? = some opening)
      (never : ∀ c, ¬ Reaches tokens o c) :
      Splits printer name tokens o
        (.malformed (.unbalancedParentheses printer.name name.span opening.span))
  | bare {opening closing : Token} {c : Nat} (begins : tokens[o]? = some opening)
      (closes : tokens[c]? = some closing) (reaches : Reaches tokens o c)
      (alone : pieces tokens o c = [[]]) :
      Splits printer name tokens o (.call ⟨printer, name, opening, closing, []⟩)
  | empty {before after : Token} {c : Nat} {gap : Nat × Nat} (reaches : Reaches tokens o c)
      (several : pieces tokens o c ≠ [[]])
      (first : (gaps tokens o c).find? (piece tokens · = []) = some gap)
      (left : tokens[gap.1]? = some before) (right : tokens[gap.2]? = some after) :
      Splits printer name tokens o
        (.malformed (.emptyArgument printer.name (before.span.through after.span)))
  | call {opening closing : Token} {c : Nat} {arguments : List Argument}
      (begins : tokens[o]? = some opening) (closes : tokens[c]? = some closing)
      (reaches : Reaches tokens o c) (filled : [] ∉ pieces tokens o c)
      (same : arguments.map (·.tokens) = pieces tokens o c) :
      Splits printer name tokens o (.call ⟨printer, name, opening, closing, arguments⟩)

/-- The arguments stand in the tokens one behind the other, a comma between two, with nothing else
around them but comments. No argument begins or ends with a comment, and the commas in it stand in
parentheses that are closed in it. -/
inductive Spread : List Argument → List Token → Prop
  | bare {comments : List Token} (blank : ∀ t ∈ comments, t.kind = .comment) : Spread [] comments
  | last {a : Argument} {lead trail : List Token} (trimmed : a.Trimmed)
      (fills : Slot.Fills 0 a.tokens) (before : ∀ t ∈ lead, t.kind = .comment)
      (behind : ∀ t ∈ trail, t.kind = .comment) : Spread [a] (lead ++ a.tokens ++ trail)
  | next {a b : Argument} {later : List Argument} {lead trail rest : List Token} {comma : Token}
      (trimmed : a.Trimmed) (fills : Slot.Fills 0 a.tokens)
      (before : ∀ t ∈ lead, t.kind = .comment) (behind : ∀ t ∈ trail, t.kind = .comment)
      (separates : comma.kind = .comma) (spread : Spread (b :: later) rest) :
      Spread (a :: b :: later) (lead ++ a.tokens ++ trail ++ comma :: rest)

theorem extract_add {tokens : List Token} {o k : Nat} (within : o ≤ k) (n : Nat) :
    tokens.extract o (k + n) = tokens.extract o k ++ (tokens.drop k).take n := by
  have length : k + n - o = (k - o) + n := by omega
  have start : o + (k - o) = k := by omega
  rw [List.extract_eq_take_drop, length, List.take_add, List.drop_drop, start]

theorem extract_succ {tokens : List Token} {o k : Nat} {t : Token} (within : o ≤ k)
    (found : tokens[k]? = some t) : tokens.extract o (k + 1) = tokens.extract o k ++ [t] := by
  obtain ⟨short, rfl⟩ := List.getElem?_eq_some_iff.1 found
  rw [extract_add within, List.drop_eq_getElem_cons short]
  rfl

theorem extract_opening {tokens : List Token} {o : Nat} {opening : Token}
    (begins : tokens[o]? = some opening) (n : Nat) :
    tokens.extract o (o + 1 + n) = opening :: (tokens.drop (o + 1)).take n := by
  rw [extract_add (Nat.le_add_right o 1), extract_succ (Nat.le_refl o) begins,
    List.extract_eq_take_drop, Nat.sub_self]
  rfl

theorem ClosesAt.unique {tokens : List Token} {o c c' : Nat} (first : ClosesAt tokens o c)
    (second : ClosesAt tokens o c') : c = c' := by
  rcases Nat.lt_trichotomy c c' with before | same | behind
  · exact absurd first.level (second.first c first.order before)
  · exact same
  · exact absurd second.level (first.first c' second.order behind)

end ArgumentList

namespace Slot

open ArgumentList

/-- An argument list closes one parenthesis more than it opens. -/
theorem Listed.depth_written {d : Nat} {slots : List Slot} (listed : Listed d slots) :
    d + Token.depth (written slots) = -1 := by
  induction listed with
  | last fills closes =>
      have closed := fills.closed
      simp only [written_cons, Token.depth_append, Token.depth_cons, Token.rise, closes]
      simp only [written, List.flatMap_nil, Token.depth_nil]
      omega
  | next fills comma _ ih =>
      have closed := fills.closed
      simp only [written_cons, Token.depth_append, Token.depth_cons, Token.rise, comma]
      omega

theorem Fills.continues {d : Nat} {tokens : List Token} (fills : Fills d tokens) :
    ∀ t ∈ tokens, endsStatement t = false := by
  intro t member
  obtain ⟨before, after, whole⟩ := List.append_of_mem member
  exact (fills.inside before t after whole).1

theorem Listed.continues {slots : List Slot} (listed : Listed 0 slots) :
    ∀ t ∈ written slots, endsStatement t = false := by
  intro t member
  obtain ⟨s, inside, here⟩ := List.mem_flatMap.1 member
  rcases List.mem_append.1 here with within | stop
  · exact (listed.fills s inside).continues t within
  · rw [List.mem_singleton.1 stop]
    exact endsStatement_of_kind (listed.stop_kind s inside)

variable {tokens after : List Token} {opening : Token} {slots : List Slot} {o k : Nat}

theorem Listed.reaches (listed : Listed 0 slots) (begins : tokens[o]? = some opening)
    (opens : opening.kind = .openParen) (behind : tokens.drop (o + 1) = written slots ++ after) :
    Reaches tokens o (o + (written slots).length) := by
  have up : opening.rise = 1 := by simp [Token.rise, opens]
  have below := listed.depth_written
  obtain ⟨inner, closing, whole, _, _⟩ := listed.written_eq
  have length : (written slots).length = inner.length + 1 := by simp [whole]
  have size := congrArg List.length behind
  rw [List.length_drop, List.length_append] at size
  refine ⟨⟨Nat.le_add_right _ _, by omega, ?_, ?_⟩, ?_⟩
  · rw [Nat.add_right_comm, extract_opening begins, behind, List.take_left, Token.depth_cons]
    omega
  · intro i least less
    obtain ⟨n, rfl⟩ := Nat.exists_eq_add_of_le least
    have short : n < (written slots).length := by omega
    have parts : written slots =
        (written slots).take n ++ (written slots)[n] :: (written slots).drop (n + 1) := by
      rw [List.getElem_cons_drop, List.take_append_drop]
    have inside := listed.depth_front parts
    rw [Nat.add_right_comm, extract_opening begins, behind,
      List.take_append_of_le_length (Nat.le_of_lt short), Token.depth_cons]
    omega
  · intro t member
    have place : o + (written slots).length = o + 1 + inner.length := by omega
    rw [place, extract_opening begins, behind, List.take_append_of_le_length (by omega)] at member
    rcases List.mem_cons.1 member with rfl | member
    · simp [endsStatement, Token.isPunct, opens]
    · exact listed.continues t (List.mem_of_mem_take member)

theorem exists_cut {d : Nat} (level : d + Token.depth tokens < 0)
    (continues : ∀ t ∈ tokens, endsStatement t = false) : ∃ slots, cut d tokens = some slots := by
  induction tokens generalizing d with
  | nil =>
      rw [Token.depth_nil] at level
      omega
  | cons t rest ih =>
      rw [Token.depth_cons] at level
      have here := continues t List.mem_cons_self
      have later : ∀ u ∈ rest, endsStatement u = false :=
        fun u member => continues u (List.mem_cons_of_mem t member)
      rw [cut, if_neg (by simp [here])]
      by_cases closes : d = 0 ∧ t.kind = .closeParen
      · exact ⟨_, if_pos closes⟩
      · have inner : d = 0 → t.kind ≠ .closeParen := fun zero kind => closes ⟨zero, kind⟩
        have depth := depthAfter_eq inner
        rw [if_neg closes]
        by_cases comma : d = 0 ∧ t.kind = .comma
        · have flat : t.rise = 0 := by simp [Token.rise, comma.2]
          obtain ⟨slots, found⟩ := @ih 0 (by omega) later
          exact ⟨_, by rw [if_pos comma, found]; rfl⟩
        · obtain ⟨slots, found⟩ := @ih (depthAfter d t) (by omega) later
          exact ⟨_, by rw [if_neg comma, found]; rfl⟩

/-- A list is cut if it is closed somewhere and no statement ends before that. -/
theorem cut_ne_none {d n : Nat} (level : d + Token.depth (tokens.take n) = -1)
    (continues : ∀ t ∈ tokens.take n, endsStatement t = false) : cut d tokens ≠ none := by
  obtain ⟨slots, found⟩ := exists_cut (d := d) (by omega) continues
  obtain ⟨listed, after, whole⟩ := cut_eq_some_iff.1 found
  rw [← List.take_append_drop n tokens, whole, List.append_assoc, cut_written listed]
  exact Option.some_ne_none slots

theorem flat_of_endsStatement {t : Token} (ends : endsStatement t = true) : t.rise = 0 := by
  cases kind : t.kind <;> simp_all [endsStatement, Token.isPunct, Token.rise]

theorem cut_of_reaches {c : Nat} (begins : tokens[o]? = some opening)
    (opens : opening.kind = .openParen) (reaches : Reaches tokens o c) :
    cut 0 (tokens.drop (o + 1)) ≠ none := by
  have up : opening.rise = 1 := by simp [Token.rise, opens]
  obtain ⟨n, rfl⟩ := Nat.exists_eq_add_of_le reaches.order
  have level := reaches.level
  rw [Nat.add_right_comm, extract_opening begins, Token.depth_cons] at level
  cases n with
  | zero =>
      rw [List.take_zero, Token.depth_nil] at level
      omega
  | succ n =>
      have short : n < (tokens.drop (o + 1)).length := by
        have inside := reaches.inside
        rw [List.length_drop]
        omega
      have last := List.take_append_getElem short
      refine @cut_ne_none _ 0 (n + 1) (by omega) ?_
      rw [← last, Token.depth_append, Token.depth_cons, Token.depth_nil] at level
      intro t member
      rw [← last] at member
      rcases List.mem_append.1 member with before | here
      · refine reaches.continues t ?_
        rw [← Nat.add_assoc, Nat.add_right_comm, extract_opening begins]
        exact List.mem_cons_of_mem opening before
      · -- otherwise the list would be closed in front of the token that ends the statement
        have above := reaches.first (o + n) (Nat.le_add_right _ _) (by omega)
        rw [Nat.add_right_comm, extract_opening begins, Token.depth_cons] at above
        rw [List.mem_singleton.1 here]
        refine Bool.eq_false_iff.2 fun ends => ?_
        have flat := flat_of_endsStatement ends
        omega

/-- The places of the separators of slots that begin at `k`. -/
def stops (k : Nat) : List Slot → List Nat
  | [] => []
  | s :: later => (k + s.tokens.length) :: stops (k + s.tokens.length + 1) later

/-- What is written at a place, taken apart at the first separator. -/
theorem drop_written {s : Slot} {later : List Slot}
    (behind : tokens.drop k = written (s :: later) ++ after) :
    (tokens.drop k).take s.tokens.length = s.tokens ∧
      tokens[k + s.tokens.length]? = some s.stop ∧
        tokens.drop (k + s.tokens.length + 1) = written later ++ after := by
  rw [written_cons, List.append_assoc, List.cons_append] at behind
  refine ⟨by rw [behind, List.take_left], ?_, ?_⟩
  · rw [← List.getElem?_drop, behind, List.getElem?_append_right (Nat.le_refl _), Nat.sub_self]
    rfl
  · rw [Nat.add_assoc, ← List.drop_drop, behind, List.drop_append]
    simp

/-- No comma of a slot separates arguments. -/
theorem Fills.no_cut {inner : List Token} (fills : Fills 0 inner) (within : o ≤ k)
    (level : Token.depth (tokens.extract o k) = 1)
    (here : (tokens.drop k).take inner.length = inner) :
    (List.range' k inner.length).filter (isCut tokens o) = [] := by
  refine List.filter_eq_nil_iff.2 fun i member selected => ?_
  obtain ⟨least, less⟩ := List.mem_range'_1.1 member
  obtain ⟨n, rfl⟩ := Nat.exists_eq_add_of_le least
  have short : n < inner.length := by omega
  have front : (tokens.drop k).take n = inner.take n := by
    conv => rhs; rw [← here, List.take_take, Nat.min_eq_left (Nat.le_of_lt short)]
  have token : tokens[k + n]? = some inner[n] := by
    rw [← List.getElem?_drop, ← List.getElem?_eq_getElem short]
    conv => rhs; rw [← here, List.getElem?_take_of_lt short]
  have parts : inner = inner.take n ++ inner[n] :: inner.drop (n + 1) := by
    rw [List.getElem_cons_drop, List.take_append_drop]
  rw [isCut, extract_add within, token, front, Token.depth_append, level, Bool.and_eq_true] at selected
  have comma : inner[n].kind = .comma := by simpa using selected.1
  have flat : 1 + Token.depth (inner.take n) = 1 := by simpa using selected.2
  exact ((fills.inside _ _ _ parts).2.2 (by omega)).1 comma

theorem Listed.stops_eq (listed : Listed 0 slots) (within : o ≤ k)
    (level : Token.depth (tokens.extract o k) = 1) {n : Nat}
    (length : (written slots).length = n + 1) (behind : tokens.drop k = written slots ++ after) :
    (List.range' k n).filter (isCut tokens o) ++ [k + n] = stops k slots := by
  generalize zero : 0 = d at listed
  induction listed generalizing k n with
  | @last d s fills _ =>
      subst zero
      have same : n = s.tokens.length := by simpa [written] using length.symm
      rw [same, fills.no_cut within level (drop_written behind).1]
      rfl
  | @next d s later fills comma listed ih =>
      subst zero
      obtain ⟨inside, stop, rest⟩ := drop_written behind
      obtain ⟨inner, closing, whole, _⟩ := listed.written_eq
      have size : (written later).length = inner.length + 1 := by simp [whole]
      have same : n = s.tokens.length + (inner.length + 1) := by
        rw [written_cons, List.length_append, List.length_cons, size] at length
        omega
      have flat : s.stop.rise = 0 := by simp [Token.rise, comma]
      have closed := fills.closed
      have above : Token.depth (tokens.extract o (k + s.tokens.length)) = 1 := by
        rw [extract_add within, inside, Token.depth_append]
        omega
      have here : isCut tokens o (k + s.tokens.length) = true := by
        rw [isCut, stop, above]
        simp [comma]
      have level' : Token.depth (tokens.extract o (k + s.tokens.length + 1)) = 1 := by
        rw [extract_succ (by omega) stop, Token.depth_append, above, Token.depth_cons, flat]
        rfl
      have next := ih (by omega) level' size rest rfl
      rw [same, ← List.range'_append_1, List.range'_succ, List.filter_append,
        fills.no_cut within level inside, List.filter_cons_of_pos here, stops, ← next]
      simp only [List.nil_append, List.cons_append, Nat.add_assoc, Nat.add_comm 1]

/-- The separators of slots that begin at `k`, each with the one before it. -/
def gapsFrom (a k : Nat) (slots : List Slot) : List (Nat × Nat) :=
  (a :: stops k slots).zip (stops k slots)

theorem gapsFrom_cons (a k : Nat) (s : Slot) (later : List Slot) :
    gapsFrom a k (s :: later) = (a, k + s.tokens.length) ::
      gapsFrom (k + s.tokens.length) (k + s.tokens.length + 1) later := rfl

theorem piece_slot {s : Slot} (here : (tokens.drop (k + 1)).take s.tokens.length = s.tokens) :
    piece tokens (k, k + 1 + s.tokens.length) = s.trimmed := by
  rw [piece, extract_add (Nat.le_refl _), here, List.extract_eq_take_drop, Nat.sub_self]
  rfl

theorem map_piece_gapsFrom (behind : tokens.drop (k + 1) = written slots ++ after) :
    (gapsFrom k (k + 1) slots).map (piece tokens) = slots.map trimmed := by
  induction slots generalizing k with
  | nil => rfl
  | cons s later ih =>
      obtain ⟨inside, _, rest⟩ := drop_written behind
      rw [gapsFrom_cons, List.map_cons, List.map_cons, piece_slot inside, ih rest]

/-- The first slot that is empty is the first empty piece. -/
theorem firstEmpty?_eq {before : Token} (begins : tokens[k]? = some before)
    (behind : tokens.drop (k + 1) = written slots ++ after) :
    (firstEmpty? before slots).map (fun ends => (some ends.1, some ends.2)) =
      ((gapsFrom k (k + 1) slots).find? (piece tokens · = [])).map
        fun gap => (tokens[gap.1]?, tokens[gap.2]?) := by
  induction slots generalizing k before with
  | nil => rfl
  | cons s later ih =>
      obtain ⟨inside, stop, rest⟩ := drop_written behind
      rw [gapsFrom_cons, firstEmpty?]
      by_cases blank : s.trimmed = []
      · rw [if_pos blank, List.find?_cons_of_pos (by simp [piece_slot inside, blank]), Option.map_some,
          Option.map_some, begins, stop]
      · rw [if_neg blank, List.find?_cons_of_neg (by simp [piece_slot inside, blank]), ih stop rest]

theorem areBare_iff_trimmed : areBare slots = true ↔ slots.map trimmed = [[]] := by
  rw [areBare_iff]
  constructor
  · rintro ⟨only, rfl, blank⟩
    rw [List.map_singleton, trimmed_eq_nil_iff.2 blank]
  · intro alone
    obtain ⟨only, rfl, blank⟩ := List.map_eq_singleton_iff.1 alone
    exact ⟨only, rfl, trimmed_eq_nil_iff.1 blank⟩

/-- The slots of an argument list that is closed at `c`, by the places of their separators. -/
structure Placed (tokens : List Token) (o c : Nat) (opening : Token) (slots : List Slot) : Prop where
  reaches : Reaches tokens o c
  closes : tokens[c]? = some (closing opening slots)
  pieces_eq : pieces tokens o c = slots.map trimmed
  firstEmpty?_eq : (firstEmpty? opening slots).map (fun ends => (some ends.1, some ends.2)) =
    ((gaps tokens o c).find? (piece tokens · = [])).map fun gap => (tokens[gap.1]?, tokens[gap.2]?)

theorem placed_of_cut (begins : tokens[o]? = some opening) (opens : opening.kind = .openParen)
    (found : cut 0 (tokens.drop (o + 1)) = some slots) : ∃ c, Placed tokens o c opening slots := by
  obtain ⟨listed, after, behind⟩ := cut_eq_some_iff.1 found
  obtain ⟨inner, whole, _⟩ := listed.closing_eq opening
  have length : (written slots).length = inner.length + 1 := by simp [whole]
  have level : Token.depth (tokens.extract o (o + 1)) = 1 := by
    rw [extract_opening begins 0]
    simp [Token.rise, opens]
  have place : o + (written slots).length = o + 1 + inner.length := by omega
  have gaps_eq : gaps tokens o (o + 1 + inner.length) = gapsFrom o (o + 1) slots := by
    rw [gaps, separators, Nat.add_sub_cancel_left,
      listed.stops_eq (Nat.le_add_right o 1) level length behind]
    rfl
  refine ⟨o + 1 + inner.length, place ▸ listed.reaches begins opens behind, ?_, ?_, ?_⟩
  · rw [← List.getElem?_drop, behind, whole]
    simp
  · rw [pieces, gaps_eq, map_piece_gapsFrom behind]
  · rw [gaps_eq, Slot.firstEmpty?_eq begins behind]

theorem Placed.firstEmpty?_eq_some {c : Nat} (placed : Placed tokens o c opening slots)
    {before after : Token} : firstEmpty? opening slots = some (before, after) ↔
      ∃ gap, (gaps tokens o c).find? (piece tokens · = []) = some gap ∧
        tokens[gap.1]? = some before ∧ tokens[gap.2]? = some after := by
  have same := placed.firstEmpty?_eq
  constructor
  · intro first
    rw [first] at same
    obtain ⟨gap, found, ends⟩ := Option.map_eq_some_iff.1 same.symm
    obtain ⟨left, right⟩ := Prod.mk.inj ends
    exact ⟨gap, found, left, right⟩
  · rintro ⟨gap, found, left, right⟩
    rw [found, Option.map_some, left, right] at same
    obtain ⟨⟨x, y⟩, first, ends⟩ := Option.map_eq_some_iff.1 same
    obtain ⟨rfl, rfl⟩ : x = before ∧ y = after := by simpa using ends
    exact first

end Slot

namespace ArgumentList

variable {printer : Printer} {name : Token} {tokens : List Token} {o c : Nat}

theorem nil_mem_pieces {gap : Nat × Nat}
    (first : (gaps tokens o c).find? (piece tokens · = []) = some gap) : [] ∈ pieces tokens o c := by
  have blank := List.find?_some first
  exact List.mem_map.2 ⟨gap, List.mem_of_find?_eq_some first, by simpa using blank⟩

theorem arguments_unique {first second : List Argument}
    (same : first.map (·.tokens) = second.map (·.tokens)) : first = second := by
  refine List.map_injective_iff.2 ?_ same
  rintro ⟨_, _⟩ ⟨_, _⟩ rfl
  rfl

/-- A name is read as one thing only. -/
theorem Splits.unique {m m' : Mention} (first : Splits printer name tokens o m)
    (second : Splits printer name tokens o m') : m = m' := by
  -- Each rule fixes whether and where the list is closed, and two rules for one place disagree about
  -- its pieces.
  cases first with
  | unbalanced begins never =>
      cases second with
      | unbalanced begins' =>
          cases Option.some.inj (begins.symm.trans begins')
          rfl
      | bare _ _ reaches => exact absurd reaches (never _)
      | empty reaches => exact absurd reaches (never _)
      | call _ _ reaches => exact absurd reaches (never _)
  | bare begins closes reaches alone =>
      cases second with
      | unbalanced _ never => exact absurd reaches (never _)
      | bare begins' closes' reaches' =>
          cases reaches.unique reaches'.toClosesAt
          cases Option.some.inj (begins.symm.trans begins')
          cases Option.some.inj (closes.symm.trans closes')
          rfl
      | empty reaches' several =>
          cases reaches.unique reaches'.toClosesAt
          exact absurd alone several
      | call _ _ reaches' filled =>
          cases reaches.unique reaches'.toClosesAt
          exact absurd (alone ▸ List.mem_singleton_self []) filled
  | empty reaches several found left right =>
      cases second with
      | unbalanced _ never => exact absurd reaches (never _)
      | bare _ _ reaches' alone =>
          cases reaches.unique reaches'.toClosesAt
          exact absurd alone several
      | empty reaches' _ found' left' right' =>
          cases reaches.unique reaches'.toClosesAt
          cases Option.some.inj (found.symm.trans found')
          cases Option.some.inj (left.symm.trans left')
          cases Option.some.inj (right.symm.trans right')
          rfl
      | call _ _ reaches' filled =>
          cases reaches.unique reaches'.toClosesAt
          exact absurd (nil_mem_pieces found) filled
  | call begins closes reaches filled same =>
      cases second with
      | unbalanced _ never => exact absurd reaches (never _)
      | bare _ _ reaches' alone =>
          cases reaches.unique reaches'.toClosesAt
          exact absurd (alone ▸ List.mem_singleton_self []) filled
      | empty reaches' _ found =>
          cases reaches.unique reaches'.toClosesAt
          exact absurd (nil_mem_pieces found) filled
      | call begins' closes' reaches' _ same' =>
          cases reaches.unique reaches'.toClosesAt
          cases Option.some.inj (begins.symm.trans begins')
          cases Option.some.inj (closes.symm.trans closes')
          cases arguments_unique (same.trans same'.symm)
          rfl

end ArgumentList

namespace Mention

open ArgumentList Slot

variable {printer : Printer} {name opening : Token} {tokens : List Token} {o : Nat}

theorem splits_readCall (begins : tokens[o]? = some opening) (opens : opening.kind = .openParen) :
    Splits printer name tokens o (readCall printer name opening (tokens.drop (o + 1))) := by
  unfold readCall
  split
  · rename_i uncut
    exact .unbalanced begins fun c reaches => cut_of_reaches begins opens reaches uncut
  · rename_i slots slotted
    obtain ⟨c, placed⟩ := placed_of_cut begins opens slotted
    dsimp only
    split
    · rename_i bare
      refine .bare begins placed.closes placed.reaches ?_
      rw [placed.pieces_eq, areBare_iff_trimmed.1 bare]
    · rename_i filled
      rw [areBare_iff_trimmed, ← placed.pieces_eq] at filled
      split
      · rename_i first
        obtain ⟨gap, found, left, right⟩ := placed.firstEmpty?_eq_some.1 first
        exact .empty placed.reaches filled found left right
      · rename_i noneEmpty
        have every := firstEmpty?_eq_none_iff.1 noneEmpty
        refine .call begins placed.closes placed.reaches ?_ ?_
        · rw [placed.pieces_eq]
          intro member
          obtain ⟨s, inside, blank⟩ := List.mem_map.1 member
          exact every s inside (trimmed_eq_nil_iff.1 blank)
        · rw [placed.pieces_eq, filterMap_ofTokens? every]

end Mention

theorem Token.depth_comments {tokens : List Token} (comments : ∀ t ∈ tokens, t.kind = .comment) :
    depth tokens = 0 := by
  induction tokens with
  | nil => rfl
  | cons t rest ih =>
      have flat : t.rise = 0 := by simp [rise, comments t List.mem_cons_self]
      rw [depth_cons, flat, ih fun u member => comments u (List.mem_cons_of_mem t member)]
      rfl

namespace Slot

open ArgumentList

/-- What is left without comments fills a slot as well. -/
theorem Fills.middle {d : Nat} {lead inner trail : List Token} (fills : Fills d (lead ++ inner ++ trail))
    (before : ∀ t ∈ lead, t.kind = .comment) (behind : ∀ t ∈ trail, t.kind = .comment) :
    Fills d inner := by
  have closed := fills.closed
  rw [Token.depth_append, Token.depth_append, Token.depth_comments before,
    Token.depth_comments behind] at closed
  refine ⟨by omega, fun front t back whole => ?_⟩
  have inside := fills.inside (lead ++ front) t (back ++ trail) (by simp [whole])
  rwa [Token.depth_append, Token.depth_comments before, Int.zero_add] at inside

/-- The argument that is made of a slot stands in it between comments. -/
theorem Fills.argument {s : Slot} (fills : Fills 0 s.tokens) {a : Argument} (made : a.tokens = s.trimmed) :
    a.Trimmed ∧ Fills 0 a.tokens ∧ ∃ lead trail, s.tokens = lead ++ a.tokens ++ trail ∧
      (∀ t ∈ lead, t.kind = .comment) ∧ ∀ t ∈ trail, t.kind = .comment := by
  obtain ⟨lead, trail, whole, before, behind⟩ := Token.trimComments_split s.tokens
  rw [← trimmed, ← made] at whole
  rw [whole] at fills
  exact ⟨trimmed_of_ofTokens? (made ▸ a.ofTokens?_tokens), fills.middle before behind,
    lead, trail, whole, before, behind⟩

/-- The arguments that are made of the slots of a list stand in it. -/
theorem Listed.spread {slots : List Slot} (listed : Listed 0 slots) {arguments : List Argument}
    (made : arguments.map (·.tokens) = slots.map trimmed) {inner : List Token} {closing : Token}
    (whole : written slots = inner ++ [closing]) : Spread arguments inner := by
  generalize zero : 0 = d at listed
  induction listed generalizing arguments inner with
  | @last d s fills _ =>
      subst zero
      obtain ⟨a, rfl, same⟩ := List.map_eq_singleton_iff.1 made
      obtain ⟨trimmed, inside, lead, trail, parts, before, behind⟩ := fills.argument same
      obtain ⟨rfl, _⟩ : inner = s.tokens ∧ closing = s.stop := by
        simpa [written, eq_comm] using whole
      rw [parts]
      exact .last trimmed inside before behind
  | @next d s later fills comma listed ih =>
      subst zero
      obtain ⟨a, others, rfl, same, rest⟩ := List.map_eq_cons_iff.1 made
      obtain ⟨trimmed, inside, lead, trail, parts, before, behind⟩ := fills.argument same
      obtain ⟨inner', closing', tail, _⟩ := listed.written_eq
      rw [written_cons, tail, ← List.cons_append, ← List.append_assoc] at whole
      obtain ⟨rfl, ends⟩ := List.append_inj' whole rfl
      cases ends
      have spread := ih rest tail rfl
      rw [parts]
      cases others with
      | nil =>
          have empty : later = [] := by simpa using rest.symm
          simp [empty, written] at tail
      | cons b others => exact .next trimmed inside before behind comma spread

end Slot

namespace Mention

open ArgumentList Slot

theorem spread_of_readCall {tokens : List Token} {o : Nat} {opening name : Token} {printer : Printer}
    (begins : tokens[o]? = some opening) (opens : opening.kind = .openParen) {c : Call}
    (read : readCall printer name opening (tokens.drop (o + 1)) = .call c) :
    ∃ stop, Reaches tokens o stop ∧ tokens[stop]? = some c.closing ∧
      Spread c.arguments (tokens.extract (o + 1) stop) := by
  obtain ⟨slots, after, behind, listed, proper, rfl⟩ := readCall_eq_call_iff.1 read
  obtain ⟨inner, list, _⟩ := listed.closing_eq opening
  have between : tokens.extract (o + 1) (o + 1 + inner.length) = inner := by
    rw [extract_add (Nat.le_refl _), behind, list, List.append_assoc, List.take_left,
      List.extract_eq_take_drop, Nat.sub_self]
    rfl
  have length : o + (written slots).length = o + 1 + inner.length := by
    rw [list, List.length_append, List.length_singleton]
    omega
  refine ⟨o + 1 + inner.length, length ▸ listed.reaches begins opens behind, ?_, ?_⟩
  · rw [← List.getElem?_drop, behind, list]
    simp
  · rw [between]
    by_cases bare : areBare slots = true
    · obtain ⟨only, rfl, blank⟩ := areBare_iff.1 bare
      obtain ⟨rfl, _⟩ : only.tokens = inner ∧ _ := by simpa [written] using list
      simp only [arguments, bare, if_true]
      exact .bare blank
    · exact listed.spread (arguments_tokens proper (by simpa using bare)) list

/-- A name in front of a parenthesis is read as the splitting of the argument list says. If it is a
call, its arguments stand in the list with nothing but commas and comments around them. -/
theorem readCall_splits {tokens : List Token} {o : Nat} {opening : Token}
    (begins : tokens[o]? = some opening) (opens : opening.kind = .openParen) (printer : Printer)
    (name : Token) :
    (∀ m, readCall printer name opening (tokens.drop (o + 1)) = m ↔
      Splits printer name tokens o m) ∧
    ∀ c, readCall printer name opening (tokens.drop (o + 1)) = .call c →
      ∃ stop, Reaches tokens o stop ∧ tokens[stop]? = some c.closing ∧
        Spread c.arguments (tokens.extract (o + 1) stop) := by
  have whole := @splits_readCall printer name opening tokens o begins opens
  refine ⟨fun m => ⟨fun read => read ▸ whole, fun splits => whole.unique splits⟩, ?_⟩
  exact fun c read => spread_of_readCall begins opens read

/-- A call of two arguments, the second of which is a call with a comma of its own. -/
def nestedCall : List Token :=
  Token.place [] .first
    [⟨[], .ident, "f"⟩, ⟨[], .openParen, "("⟩, ⟨[], .comment, "/*,*/"⟩, ⟨[], .ident, "x"⟩,
      ⟨[], .comma, ","⟩, ⟨[], .ident, "g"⟩, ⟨[], .openParen, "("⟩, ⟨[], .ident, "y"⟩,
      ⟨[], .comma, ","⟩, ⟨[], .ident, "z"⟩, ⟨[], .closeParen, ")"⟩, ⟨[], .comment, "/*)*/"⟩,
      ⟨[], .closeParen, ")"⟩, ⟨[], .punct, ";"⟩, ⟨[], .eof, []⟩]

def nestedArguments : List Argument :=
  [⟨[nestedCall[3]], by decide⟩, ⟨nestedCall.extract 5 11, by decide⟩]

/-- The same with nothing but a comment in place of the first argument. -/
def gapCall : List Token := nestedCall.eraseIdx 3

theorem readCall_splits_nestedCall :
    Splits ⟨"f", [], true⟩ nestedCall[0] nestedCall 1
        (.call ⟨⟨"f", [], true⟩, nestedCall[0], nestedCall[1], nestedCall[12], nestedArguments⟩) ∧
      (∃ stop, Reaches nestedCall 1 stop ∧ nestedCall[stop]? = some nestedCall[12] ∧
        Spread nestedArguments (nestedCall.extract 2 stop)) ∧
      Splits ⟨"f", [], true⟩ gapCall[0] gapCall 1
        (.malformed (.emptyArgument "f" (gapCall[1].span.through gapCall[3].span))) := by
  obtain ⟨splits, spread⟩ :=
    @readCall_splits nestedCall 1 _ (by rfl) (by rfl) ⟨"f", [], true⟩ nestedCall[0]
  refine ⟨(splits _).1 (by rfl), spread ⟨_, _, _, _, nestedArguments⟩ (by rfl), ?_⟩
  exact ((readCall_splits (by rfl) (by rfl) _ _).1 _).1 (by rfl)

end Mention

end FormatLint
