import FormatLint.Proofs.Token.StringLiteral

/-!
Escape sequences in the insides of literals. An octal or hexadecimal escape takes all digits it can
get, so which glyphs it consists of depends on where its literal ends. `escapes_intercalate` says that
a quotation mark between enclosed texts keeps their escapes apart.
-/

namespace FormatLint.Escape

def isHexDigit (g : Glyph) : Bool :=
  g.satisfies fun c => c.isDigit || 'a' ≤ c && c ≤ 'f' || 'A' ≤ c && c ≤ 'F'

def isOctalDigit (g : Glyph) : Bool := g.satisfies fun c => '0' ≤ c && c ≤ '7'

variable {α β : Type} (glyph : α → Glyph)

/-- The digits that an escape sequence takes behind the backslash and the item `next`: any number of
hexadecimal ones behind an `x`, and up to two behind an octal one. -/
def digits (next : α) (rest : List α) : List α :=
  if glyph next = .char 'x' then rest.takeWhile (isHexDigit ∘ glyph)
  else if isOctalDigit (glyph next) then (rest.takeWhile (isOctalDigit ∘ glyph)).take 2
  else []

/-- The escape sequences in the inside of a literal, each with the items that it consists of. -/
def escapes : List α → List (List α)
  | [] => []
  | [_] => []
  | item :: next :: rest =>
    if glyph item = .char '\\' then (item :: next :: digits glyph next rest) :: escapes rest
    else escapes (next :: rest)

@[simp] theorem escapes_nil : escapes glyph [] = [] := rfl

theorem escapes_plain {item : α} {rest : List α} (noSlash : glyph item ≠ .char '\\') :
    escapes glyph (item :: rest) = escapes glyph rest := by
  cases rest with
  | nil => rfl
  | cons next rest => simp [escapes, noSlash]

theorem escapes_escape {item next : α} {rest : List α} (slash : glyph item = .char '\\') :
    escapes glyph (item :: next :: rest) =
      (item :: next :: digits glyph next rest) :: escapes glyph rest := by
  simp [escapes, slash]

theorem digits_map (f : β → α) (next : β) (rest : List β) :
    digits glyph (f next) (rest.map f) = (digits (glyph ∘ f) next rest).map f := by
  unfold digits
  rw [List.takeWhile_map, List.takeWhile_map]
  simp only [Function.comp_apply]
  split
  · rfl
  · split
    · rw [← List.map_take]
      rfl
    · rfl

theorem escapes_map (f : β → α) (items : List β) :
    escapes glyph (items.map f) = (escapes (glyph ∘ f) items).map (·.map f) := by
  fun_induction escapes (glyph ∘ f) items with
  | case1 => rfl
  | case2 => rfl
  | case3 item next rest slash ih =>
      rw [List.map_cons, List.map_cons, escapes_escape glyph slash, digits_map, ih]
      rfl
  | case4 item next rest noSlash ih =>
      rw [List.map_cons, escapes_plain glyph noSlash, ih]

theorem flatMap_escapes_map (f : β → α) (bodies : List (List β)) :
    (bodies.map (·.map f)).flatMap (escapes glyph) =
      (bodies.flatMap (escapes (glyph ∘ f))).map (·.map f) := by
  rw [List.flatMap_map, List.map_flatMap]
  exact congrArg (bodies.flatMap ·) (funext fun body => escapes_map glyph f body)

/-- An escape in front of either list takes the same digits from it. -/
def SameRun (before after : List α) : Prop :=
  ∀ p : Glyph → Bool, p (.char '"') = false → p (.char '%') = false →
    before.takeWhile (p ∘ glyph) = after.takeWhile (p ∘ glyph)

/-- No escape in front of the list takes a digit from it. -/
def Stops (items : List α) : Prop :=
  ∀ item ∈ items.head?, glyph item = .char '"' ∨ glyph item = .char '%'

variable {glyph}

theorem Stops.takeWhile {items : List α} (stops : Stops glyph items) {p : Glyph → Bool}
    (noQuote : p (.char '"') = false) (noPercent : p (.char '%') = false) :
    items.takeWhile (p ∘ glyph) = [] := by
  cases items with
  | nil => rfl
  | cons item rest =>
      rcases stops item rfl with same | same
      · simp [same, noQuote]
      · simp [same, noPercent]

theorem SameRun.refl (items : List α) : SameRun glyph items items := fun _ _ _ => rfl

theorem SameRun.of_stops {before after : List α} (first : Stops glyph before)
    (second : Stops glyph after) : SameRun glyph before after := by
  intro p noQuote noPercent
  rw [first.takeWhile noQuote noPercent, second.takeWhile noQuote noPercent]

theorem SameRun.append {before after : List α} (same : SameRun glyph before after)
    (items : List α) : SameRun glyph (items ++ before) (items ++ after) := by
  intro p noQuote noPercent
  induction items with
  | nil => exact same p noQuote noPercent
  | cons item items ih =>
      rw [List.cons_append, List.cons_append, List.takeWhile_cons, List.takeWhile_cons, ih]

theorem SameRun.digits {before after : List α} (same : SameRun glyph before after) (next : α) :
    digits glyph next before = digits glyph next after := by
  unfold Escape.digits
  rw [same isHexDigit (by decide) (by decide), same isOctalDigit (by decide) (by decide)]

theorem SameRun.of_append_stops {items : List α} (stopped : List α)
    (stops : Stops glyph stopped) : SameRun glyph (items ++ stopped) items := by
  have nothing : Stops glyph ([] : List α) := fun _ member => by cases member
  have run := (SameRun.of_stops stops nothing).append items
  rwa [List.append_nil] at run

/-- An enclosed text keeps its escapes if no digit follows. -/
theorem escapes_append {items stopped : List α} (enclosed : Enclosed (items.map glyph))
    (stops : Stops glyph stopped) :
    escapes glyph (items ++ stopped) = escapes glyph items ++ escapes glyph stopped := by
  fun_induction escapes glyph items with
  | case1 => rfl
  | case2 item =>
      have noSlash : glyph item ≠ .char '\\' := by
        intro slash
        rw [List.map_singleton, slash] at enclosed
        cases enclosed with
        | plain noSlash => exact noSlash rfl
      exact escapes_plain glyph noSlash
  | case3 item next rest slash ih =>
      rw [List.map_cons, List.map_cons, slash] at enclosed
      rw [List.cons_append, List.cons_append, escapes_escape glyph slash,
        ih enclosed.behind_escape, (SameRun.of_append_stops stopped stops).digits]
      rfl
  | case4 item next rest noSlash ih =>
      rw [List.map_cons] at enclosed
      rw [List.cons_append, escapes_plain glyph noSlash, ih (enclosed.behind_plain noSlash)]

variable (glyph) in
/-- Enclosed texts keep their escapes if a quotation mark is put between them. -/
theorem escapes_intercalate (mark : α) (quote : glyph mark = .char '"') {bodies : List (List α)}
    (enclosed : ∀ body ∈ bodies, Enclosed (body.map glyph)) :
    escapes glyph ([mark].intercalate bodies) = bodies.flatMap (escapes glyph) := by
  have noSlash : glyph mark ≠ .char '\\' := by simp [quote]
  induction bodies with
  | nil => rfl
  | cons body later ih =>
      have rest := ih fun other member => enclosed other (List.mem_cons_of_mem body member)
      cases later with
      | nil => simp
      | cons next later =>
          have stops : Stops glyph ([mark] ++ [mark].intercalate (next :: later)) := by
            intro item first
            cases Option.some.inj first
            exact .inl quote
          rw [List.intercalate_cons_cons, List.append_assoc,
            escapes_append (enclosed body List.mem_cons_self) stops, List.singleton_append,
            escapes_plain glyph noSlash, rest]
          rfl

end FormatLint.Escape
