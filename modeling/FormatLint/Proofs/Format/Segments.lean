import FormatLint.Proofs.Format.Stretch
import Mathlib

/-!
The segments of a format, read as literals again. `FormatString.segments_literals` says that they
have the text between the directives for their content, and that every escape sequence in them
consists of the same glyphs of the source as it did there.
-/

namespace FormatLint

/-- The glyphs that a piece prints as they are: all of a text, and one percent sign for two. -/
def Piece.literal : Piece → Text
  | .text glyphs => glyphs
  | .percent => [.char '%']
  | .directive _ => []

def Piece.isDirective : Piece → Bool
  | .directive _ => true
  | _ => false

/-- The literal text before, between and behind the directives. -/
def Piece.between (pieces : List Piece) : List Text :=
  (pieces.splitOnP isDirective).map (·.flatMap literal)

/-- Between two double quotes, the text is read as literals with these insides and nothing else. -/
def ReadsAs (segment : Text) (bodies : List Text) : Prop :=
  ∃ lexemes, Lexeme.ofText (.char '"' :: (segment ++ [.char '"'])) = .ok lexemes ∧
    lexemes.map (fun l => (l.kind, l.text)) =
      bodies.map (fun body => (.string, .char '"' :: (body ++ [.char '"']))) ++ [(.eof, [])]

namespace FormatString

open Escape

/-- The stretches of pieces that begin at the offset `o`. -/
def stretchesAt (o : Nat) : List Piece → List Stretch
  | [] => [[]]
  | .text glyphs :: later => consStretch (number o glyphs) (stretchesAt (o + glyphs.length) later)
  | .percent :: later => consStretch [(o, .char '%')] (stretchesAt (o + 2) later)
  | .directive d :: later => [] :: stretchesAt (o + d.text.length) later

theorem consStretch_ne_nil (stretch : Stretch) (stretches : List Stretch) :
    consStretch stretch stretches ≠ [] := by
  cases stretches <;> simp [consStretch]

theorem stretchesAt_ne_nil (o : Nat) (pieces : List Piece) : stretchesAt o pieces ≠ [] := by
  unfold stretchesAt
  split
  · simp
  · exact consStretch_ne_nil _ _
  · exact consStretch_ne_nil _ _
  · simp

theorem stretches_place (whole : Span) (o : Nat) (content : List Located) (pieces : List Piece) :
    stretches (PlacedPiece.place whole o content pieces) = stretchesAt o pieces := by
  induction pieces generalizing o content with
  | nil => rfl
  | cons piece later ih => cases piece <;> simp [PlacedPiece.place, stretches, stretchesAt, ih,
      Piece.source, number, Text.ofString]

theorem consStretch_append (before after : Stretch) {stretches : List Stretch}
    (nonempty : stretches ≠ []) : consStretch (before ++ after) stretches =
      consStretch before (consStretch after stretches) := by
  cases stretches with
  | nil => exact absurd rfl nonempty
  | cons first later => simp [consStretch]

theorem stretchesAt_consText (o : Nat) (glyphs : Text) (pieces : List Piece) :
    stretchesAt o (Piece.consText glyphs pieces) =
      consStretch (number o glyphs) (stretchesAt (o + glyphs.length) pieces) := by
  unfold Piece.consText
  split
  · rename_i first later
    simp only [stretchesAt]
    rw [number_append, consStretch_append _ _ (stretchesAt_ne_nil _ _), List.length_append,
      Nat.add_assoc]
  · rfl

/-- Up to every break in it, the text from the offset `o` on is enclosed. -/
def Fits (breaks : List Nat) (o : Nat) (t : Text) : Prop :=
  ∀ b ∈ breaks, o ≤ b → b ≤ o + t.length → Enclosed (t.take (b - o))

variable {breaks : List Nat}

theorem Fits.behind_slashless {o : Nat} {rest : Text} (word : Text)
    (noSlash : ∀ g ∈ word, g ≠ .char '\\') (fits : Fits breaks o (word ++ rest)) :
    Fits breaks (o + word.length) rest := by
  intro b listed after within
  have front := fits b listed (by omega) (by simp only [List.length_append]; omega)
  have length : b - o = word.length + (b - (o + word.length)) := by omega
  rw [length, List.take_length_add_append] at front
  exact front.behind_slashless noSlash

theorem Fits.behind_escape {o : Nat} {g : Glyph} {rest : Text}
    (fits : Fits breaks o (.char '\\' :: g :: rest)) :
    o + 1 ∉ breaks ∧ Fits breaks (o + 2) rest := by
  constructor
  · intro listed
    have front := fits (o + 1) listed (by omega) (by simp only [List.length_cons]; omega)
    have length : o + 1 - o = 1 := by omega
    rw [length] at front
    cases front with
    | plain noSlash => exact noSlash rfl
  · intro b listed after within
    have front := fits b listed (by omega) (by simp only [List.length_cons]; omega)
    have length : b - o = b - (o + 2) + 2 := by omega
    rw [length] at front
    exact front.behind_escape

namespace Tiled

variable {o : Nat} {g : Glyph} {rest : Text} {stretches : List Stretch}

theorem ne_nil {t : Text} (tiled : Tiled breaks o t stretches) : stretches ≠ [] := by
  cases tiled <;> exact List.cons_ne_nil _ _

theorem consStretch_escape (joined : o + 1 ∉ breaks) (next : Tiled breaks (o + 2) rest stretches) :
    Tiled breaks o (.char '\\' :: g :: rest) (consStretch (number o [.char '\\', g]) stretches) := by
  obtain ⟨first, more, rfl, same⟩ := exists_consStretch (number o [.char '\\', g]) next.ne_nil
  rw [same]
  exact .escape joined next

theorem consStretch_plain (noSlash : g ≠ .char '\\') (noQuote : g ≠ .char '"')
    (noFeed : g ≠ .char '\n') (next : Tiled breaks (o + 1) rest stretches) :
    Tiled breaks o (g :: rest) (consStretch (number o [g]) stretches) := by
  obtain ⟨first, more, rfl, same⟩ := exists_consStretch (number o [g]) next.ne_nil
  rw [same]
  exact .plain noSlash noQuote noFeed next

theorem consStretch_percent (next : Tiled breaks (o + 2) rest stretches) :
    Tiled breaks o (.char '%' :: .char '%' :: rest) (consStretch [(o, .char '%')] stretches) := by
  obtain ⟨first, more, rfl, same⟩ := exists_consStretch [(o, .char '%')] next.ne_nil
  rw [same]
  exact .percent next

end Tiled

/-- The stretches of an enclosed text tile it if the breaks fit. -/
theorem tiled_ofText {o : Nat} {t : Text} (enclosed : Enclosed t) (fits : Fits breaks o t) :
    Tiled breaks o t (stretchesAt o (Piece.ofText t)) := by
  fun_induction Piece.ofText t generalizing o with
  | case1 => exact .nil
  | case2 =>
      have next : Tiled breaks (o + 1) [] [[]] := .nil
      exact @Tiled.directive breaks o [.char '%'] [] _ rfl (by simp) next
  | case3 g noPercent =>
      have noSlash : g ≠ .char '\\' := by
        rintro rfl
        cases enclosed with
        | plain noSlash => exact noSlash rfl
      obtain ⟨noQuote, noFeed⟩ := enclosed.classes noSlash
      exact .plain noSlash noQuote noFeed .nil
  | case4 next rest ih =>
      -- A backslash takes the next glyph along, so no literal ends between the two.
      obtain ⟨joined, later⟩ := fits.behind_escape
      rw [stretchesAt_consText]
      exact .consStretch_escape joined (ih enclosed.behind_escape later)
  | case5 g next rest noSlash noPercent ih =>
      obtain ⟨noQuote, noFeed⟩ := enclosed.classes noSlash
      have later : Fits breaks (o + 1) (next :: rest) :=
        fits.behind_slashless [g] (by simpa using noSlash)
      rw [stretchesAt_consText]
      exact .consStretch_plain noSlash noQuote noFeed (ih (enclosed.behind_plain noSlash) later)
  | case6 g rest noSlash percent ih =>
      obtain rfl : g = .char '%' := Classical.not_not.1 percent
      have later : Fits breaks (o + 2) rest :=
        fits.behind_slashless [.char '%', .char '%'] (by simp)
      exact .consStretch_percent (ih ((enclosed.behind_plain noSlash).behind_plain noSlash) later)
  | case7 g next rest noSlash percent noPercent reading =>
      rename_i ih
      obtain rfl : g = .char '%' := Classical.not_not.1 percent
      have slashless := Directive.read_noSlash (next :: rest)
      have split_text := Directive.read_text (next :: rest)
      rw [← split_text] at enclosed fits ⊢
      have tiled := ih (enclosed.behind_slashless slashless) (fits.behind_slashless _ slashless)
      exact .directive rfl slashless tiled

/-- Bodies put together, each with the offsets of its glyphs. -/
def numberAll (o : Nat) : List Text → List Stretch
  | [] => []
  | body :: later => number o body :: numberAll (o + body.length) later

/-- Where bodies begin that are put together from the offset `o` on. -/
def starts (o : Nat) : List Text → List Nat
  | [] => []
  | body :: later => o :: starts (o + body.length) later

theorem starts_eq_bodyStarts (o : Nat) (bodies : List (List Located)) :
    starts o (bodies.map Located.text) = Argument.bodyStarts o bodies := by
  induction bodies generalizing o with
  | nil => rfl
  | cons body later ih => simp [starts, Argument.bodyStarts, ih, Located.text]

theorem exists_front {o b : Nat} {bodies : List Text} (start : b ∈ starts o bodies) :
    ∃ front back, bodies = front ++ back ∧ b = o + front.flatten.length := by
  induction bodies generalizing o with
  | nil => simp [starts] at start
  | cons body later ih =>
      rcases List.mem_cons.1 start with rfl | start
      · exact ⟨[], body :: later, rfl, rfl⟩
      · obtain ⟨front, back, rfl, rfl⟩ := ih start
        exact ⟨body :: front, back, rfl, by simp [Nat.add_assoc]⟩

theorem fits_starts {bodies : List Text} (enclosed : ∀ body ∈ bodies, Enclosed body) :
    Fits (starts 0 bodies).tail 0 bodies.flatten := by
  intro b listed _ _
  obtain ⟨front, back, rfl, rfl⟩ := exists_front (List.mem_of_mem_tail listed)
  rw [List.flatten_append, Nat.zero_add, Nat.sub_zero, List.take_left]
  exact Enclosed.flatten fun body member => enclosed body (List.mem_append_left back member)

theorem starts_ge {o b : Nat} {bodies : List Text} (start : b ∈ starts o bodies) : o ≤ b := by
  obtain ⟨front, _, _, rfl⟩ := exists_front start
  omega

theorem mem_number {o : Nat} {t : Text} {item : Nat × Glyph} (member : item ∈ number o t) :
    o ≤ item.1 ∧ item.1 < o + t.length := by
  induction t generalizing o with
  | nil => simp at member
  | cons g t ih =>
      rw [List.length_cons]
      rcases List.mem_cons.1 member with rfl | member
      · exact ⟨Nat.le_refl o, by simp⟩
      · have bounds := ih member
        omega

theorem spread_free {stretch : Stretch} (free : ∀ item ∈ stretch, item.1 ∉ breaks) :
    spread breaks stretch = stretch := by
  induction stretch with
  | nil => rfl
  | cons item rest ih =>
      have here := free item List.mem_cons_self
      rw [spread_cons, ih fun other member => free other (List.mem_cons_of_mem item member)]
      simp [spread, here]

theorem escapes_spread_head (item : Nat × Glyph) (rest : Stretch) :
    Escape.escapes Prod.snd (spread breaks [item] ++ rest) =
      Escape.escapes Prod.snd (item :: rest) := by
  have noMark : mark.2 ≠ .char '\\' := by decide
  simp only [spread, List.flatMap_singleton]
  split
  · rw [List.cons_append, List.singleton_append, escapes_plain Prod.snd noMark]
  · rfl

theorem stops_spread_number {o : Nat} {t : Text} (start : t ≠ [] → o ∈ breaks) :
    Stops Prod.snd (spread breaks (number o t)) := by
  intro first member
  cases t with
  | nil => cases member
  | cons g t =>
      have listed := start (by simp)
      rw [number_cons, spread_cons] at member
      simp only [spread, List.flatMap_singleton, listed, if_true] at member
      cases Option.some.inj member
      exact .inl rfl

/-- Bodies keep their escapes when they are put together with marks at their starts. -/
theorem escapes_numberAll {o : Nat} {bodies : List Text}
    (enclosed : ∀ body ∈ bodies, Enclosed body)
    (marked : ∀ b, o < b → (b ∈ breaks ↔ b ∈ starts o bodies)) :
    Escape.escapes Prod.snd (spread breaks (number o bodies.flatten)) =
      (numberAll o bodies).flatMap (Escape.escapes Prod.snd) := by
  induction bodies generalizing o with
  | nil => rfl
  | cons body later ih =>
      have rest := ih (o := o + body.length)
        (fun other member => enclosed other (List.mem_cons_of_mem body member)) (by
          intro b after
          rw [marked b (by omega)]
          simp only [starts, List.mem_cons]
          constructor
          · rintro (rfl | later)
            · omega
            · exact later
          · exact .inr)
      rw [List.flatten_cons, number_append, numberAll, List.flatMap_cons, ← rest]
      cases body with
      | nil => rfl
      | cons g more =>
          have free : ∀ item ∈ number (o + 1) more, item.1 ∉ breaks := by
            intro item member listed
            obtain ⟨low, high⟩ := mem_number member
            rcases List.mem_cons.1 ((marked item.1 (by omega)).1 listed) with same | inside
            · omega
            · have bound := starts_ge inside
              simp only [List.length_cons] at bound
              omega
          have stops : Stops Prod.snd
              (spread breaks (number (o + (g :: more).length) later.flatten)) := by
            refine stops_spread_number fun nonempty => ?_
            refine (marked _ (by simp only [List.length_cons]; omega)).2 ?_
            cases later with
            | nil => exact absurd rfl nonempty
            | cons next later => exact List.mem_cons_of_mem _ List.mem_cons_self
          have inside : Enclosed ((number o (g :: more)).map Prod.snd) := by
            rw [number_glyphs]
            exact enclosed _ List.mem_cons_self
          rw [spread_append, number_cons, spread_cons, spread_free free, List.append_assoc,
            escapes_spread_head, ← List.cons_append, ← number_cons,
            escapes_append inside stops]

def literalLexemes (blanks : Text) : List Text → List Lexeme
  | [] => []
  | body :: later =>
    ⟨blanks, .string, .char '"' :: (body ++ [.char '"'])⟩ :: literalLexemes [.char ' '] later

theorem literalLexemes_chain {blanks : Text} (gaps : ∀ g ∈ blanks, Lexeme.isGap g = true)
    {bodies : List Text} (enclosed : ∀ body ∈ bodies, Enclosed body) (rest : Text) :
    Lexeme.Chain (literalLexemes blanks bodies) rest := by
  induction bodies generalizing blanks with
  | nil => exact .nil
  | cons body later ih =>
      refine .cons gaps ?_ ?_ (ih (by decide) fun other member =>
        enclosed other (List.mem_cons_of_mem body member))
      · intro g first
        cases Option.some.inj first
        decide
      · exact Head.form_string_iff.2 ⟨[], body, .inl rfl, enclosed body List.mem_cons_self, rfl⟩

theorem flatten_literalLexemes (blanks : Text) {bodies : List Text} (nonempty : bodies ≠ []) :
    Lexeme.flatten (literalLexemes blanks bodies) =
      blanks ++ .char '"' :: ((Text.ofString "\" \"").intercalate bodies ++ [.char '"']) := by
  induction bodies generalizing blanks with
  | nil => exact absurd rfl nonempty
  | cons body later ih =>
      cases later with
      | nil => simp [literalLexemes, Lexeme.flatten]
      | cons next later =>
          rw [literalLexemes, Lexeme.flatten_cons, ih [.char ' '] (by simp),
            List.intercalate_cons_cons]
          simp [Text.ofString]

theorem literalLexemes_words (blanks : Text) (bodies : List Text) :
    (literalLexemes blanks bodies).map (fun l => (l.kind, l.text)) =
      bodies.map fun body => (.string, .char '"' :: (body ++ [.char '"'])) := by
  induction bodies generalizing blanks with
  | nil => rfl
  | cons body later ih => simp [literalLexemes, ih]

/-- Enclosed texts with quotes between them are read as one literal each. -/
theorem readsAs_intercalate {bodies : List Text} (nonempty : bodies ≠ [])
    (enclosed : ∀ body ∈ bodies, Enclosed body) :
    ReadsAs ((Text.ofString "\" \"").intercalate bodies) bodies := by
  have chain := literalLexemes_chain Lexeme.gaps_nil enclosed []
  have read := Lexeme.ofText_words chain
  rw [flatten_literalLexemes [] nonempty, List.nil_append] at read
  exact ⟨_, read, by simp [literalLexemes_words]⟩

theorem groups_sublist (stretch : Stretch) : ∀ group ∈ groups breaks stretch,
    group ∈ cutAt breaks stretch := by
  intro group member
  cases stretch with
  | nil => exact member
  | cons item rest =>
      rw [cutAt_cons]
      split
      · exact List.mem_cons_of_mem _ member
      · exact member

theorem groups_ne_nil (stretch : Stretch) : groups breaks stretch ≠ [] := by
  cases stretch with
  | nil => simp [groups]
  | cons item rest => exact consStretch_ne_nil _ _

theorem escapes_groups {stretch : Stretch}
    (enclosed : ∀ group ∈ cutAt breaks stretch, Enclosed (group.map Prod.snd)) :
    (groups breaks stretch).flatMap (Escape.escapes Prod.snd) =
      Escape.escapes Prod.snd (spread breaks stretch) := by
  have whole := escapes_intercalate Prod.snd mark rfl enclosed
  have joined := intercalate_cutAt breaks [mark] id stretch
  simp only [List.map_id_fun, id_eq, List.singleton_append, List.map_id_fun'] at joined
  change _ = spread breaks stretch at joined
  rw [joined] at whole
  rw [whole]
  cases stretch with
  | nil => rfl
  | cons item rest =>
      rw [cutAt_cons]
      split
      · rfl
      · rfl

theorem glyphs_consStretch (stretch : Stretch) {stretches : List Stretch} (nonempty : stretches ≠ []) :
    (consStretch stretch stretches).map (·.map Prod.snd) =
      (stretches.map (·.map Prod.snd)).modifyHead (stretch.map Prod.snd ++ ·) := by
  obtain ⟨first, more, rfl, same⟩ := exists_consStretch stretch nonempty
  rw [same]
  simp

theorem glyphs_stretchesAt (o : Nat) (pieces : List Piece) :
    (stretchesAt o pieces).map (·.map Prod.snd) = Piece.between pieces := by
  unfold Piece.between
  induction pieces generalizing o with
  | nil => rfl
  | cons piece later ih =>
      have nonempty := List.splitOnP_ne_nil Piece.isDirective later
      obtain ⟨pieces, others, whole⟩ := List.exists_cons_of_ne_nil nonempty
      rw [whole] at ih
      rw [List.splitOnP_cons_eq_if_modifyHead, whole]
      cases piece with
      | text glyphs =>
          rw [stretchesAt, glyphs_consStretch _ (stretchesAt_ne_nil _ later), ih (o + glyphs.length)]
          simp [Piece.isDirective, Piece.literal, number_glyphs]
      | percent =>
          rw [stretchesAt, glyphs_consStretch _ (stretchesAt_ne_nil _ later), ih (o + 2)]
          simp [Piece.isDirective, Piece.literal]
      | directive d =>
          rw [stretchesAt, List.map_cons, ih (o + d.text.length)]
          simp [Piece.isDirective]

def locate (content : List Located) (item : Nat × Glyph) : Located :=
  ⟨item.2, (content[item.1]?.map (·.position)).getD default⟩

/-- Escapes stay where they are when offsets are replaced by glyphs of the content. -/
theorem escapes_locate (content : List Located) (bodies : List Stretch) :
    (bodies.map (·.map (locate content))).flatMap (Escape.escapes Located.glyph) =
      (bodies.flatMap (Escape.escapes Prod.snd)).map (·.map (locate content)) :=
  flatMap_escapes_map Located.glyph (locate content) bodies

theorem locate_number (before body after : List Located) :
    (number before.length (Located.text body)).map (locate (before ++ (body ++ after))) = body := by
  induction body generalizing before with
  | nil => rfl
  | cons l body ih =>
      have rest := ih (before ++ [l])
      rw [List.length_append, List.append_assoc] at rest
      have here : locate (before ++ (l :: body ++ after)) (before.length, l.glyph) = l := by
        simp [locate]
      change locate _ (before.length, l.glyph) :: (number _ _).map _ = _
      rw [here]
      exact congrArg (l :: ·) rest

theorem locate_numberAll (before : List Located) (bodies : List (List Located)) :
    (numberAll before.length (bodies.map Located.text)).map
      (·.map (locate (before ++ bodies.flatten))) = bodies := by
  induction bodies generalizing before with
  | nil => rfl
  | cons body later ih =>
      have rest := ih (before ++ body)
      rw [List.length_append, List.append_assoc] at rest
      have length : (Located.text body).length = body.length := by simp [Located.text]
      rw [List.map_cons, numberAll, List.map_cons, List.flatten_cons, locate_number, length]
      exact congrArg (body :: ·) rest

theorem text_flatten (bodies : List (List Located)) :
    Located.text bodies.flatten = (bodies.map Located.text).flatten := by
  simp only [Located.text, List.map_flatten]
  rfl

theorem ofArgument?_inversion {a : Argument} {f : FormatString}
    (spelled : ofArgument? a = some f) :
    (∀ t ∈ a.code, t.kind = .string) ∧ f.content = a.literalBodies.flatten ∧
      f.breaks = (starts 0 (a.literalBodies.map Located.text)).tail ∧
      f.parts.map (·.piece) = Piece.ofText (a.literalBodies.map Located.text).flatten ∧
      f.segments = (stretchesAt 0 (Piece.ofText (a.literalBodies.map Located.text).flatten)).map
        (spell f.breaks) := by
  unfold ofArgument? at spelled
  split at spelled
  · rename_i literal
    cases spelled
    refine ⟨by simpa [Argument.isStringLiteral] using literal, rfl, ?_, ?_, ?_⟩
    · rw [starts_eq_bodyStarts]
      rfl
    · rw [PlacedPiece.place_pieces, text_flatten]
    · rw [segments, stretches_place, text_flatten]
  · cases spelled

theorem enclosed_bodies {file content : Text} {tokens : List Token} {a : Argument}
    (read : Token.tokenize file content = .ok tokens) (inside : ∀ t ∈ a.tokens, t ∈ tokens)
    (literal : ∀ t ∈ a.code, t.kind = .string) :
    ∀ body ∈ a.literalBodies.map Located.text, Enclosed body := by
  intro body member
  obtain ⟨located, listed, rfl⟩ := List.mem_map.1 member
  obtain ⟨t, coded, rfl⟩ := List.mem_map.1 listed
  rw [Token.text_literalBody]
  have stands := inside t (List.mem_filter.1 coded).1
  exact (Token.string_lexeme read stands (literal t coded)).1

theorem tiled_bodies {bodies : List Text} (enclosed : ∀ body ∈ bodies, Enclosed body) :
    Tiled (starts 0 bodies).tail 0 bodies.flatten
      (stretchesAt 0 (Piece.ofText bodies.flatten)) :=
  tiled_ofText (Enclosed.flatten enclosed) (fits_starts enclosed)

theorem marked_starts (bodies : List Text) :
    ∀ b, 0 < b → (b ∈ (starts 0 bodies).tail ↔ b ∈ starts 0 bodies) := by
  intro b positive
  cases bodies with
  | nil => rfl
  | cons body later =>
      simp only [starts, List.tail_cons, List.mem_cons]
      exact ⟨.inr, fun start => start.resolve_left (by omega)⟩

/-- A segment is made of the insides of literals. -/
theorem segments_enclosed {file content : Text} {tokens : List Token} {a : Argument}
    {f : FormatString} (read : Token.tokenize file content = .ok tokens)
    (inside : ∀ t ∈ a.tokens, t ∈ tokens) (spelled : ofArgument? a = some f) :
    ∀ segment ∈ f.segments, ∃ bodies, bodies ≠ [] ∧ (∀ body ∈ bodies, Enclosed body) ∧
      segment = (Text.ofString "\" \"").intercalate bodies := by
  intro segment member
  obtain ⟨literal, _, breaks, _, segments⟩ := ofArgument?_inversion spelled
  have tiled := tiled_bodies (enclosed_bodies read inside literal)
  rw [← breaks] at tiled
  rw [segments] at member
  obtain ⟨stretch, listed, rfl⟩ := List.mem_map.1 member
  refine ⟨_, ?_, ?_, spell_eq_intercalate f.breaks stretch⟩
  · simpa using groups_ne_nil stretch
  · intro body grouped
    obtain ⟨group, found, rfl⟩ := List.mem_map.1 grouped
    exact tiled.enclosed f.breaks stretch listed group (groups_sublist stretch group found)

/-- The segments of a format are one more than its directives. Read between double quotes, they are
literals with the text between the directives for their content, in which two percent signs count as
one, and every escape sequence in them consists of the glyphs of the source that it had there. -/
theorem segments_literals {file content : Text} {tokens : List Token} {a : Argument}
    {f : FormatString} (read : Token.tokenize file content = .ok tokens)
    (inside : ∀ t ∈ a.tokens, t ∈ tokens) (spelled : ofArgument? a = some f) :
    f.segments.length = f.directives.length + 1 ∧
      Piece.flatten (f.parts.map (·.piece)) = f.text ∧
      ∃ literals : List (List (List Located)),
        List.Forall₂ (fun segment bodies => ReadsAs segment (bodies.map Located.text))
          f.segments literals ∧
        literals.map (fun bodies => Located.text bodies.flatten) =
          Piece.between (f.parts.map (·.piece)) ∧
        literals.flatMap (fun bodies => bodies.flatMap (Escape.escapes Located.glyph)) =
          a.literalBodies.flatMap (Escape.escapes Located.glyph) := by
  obtain ⟨literal, contents, breaks, parts, segments⟩ := ofArgument?_inversion spelled
  have enclosed := enclosed_bodies read inside literal
  have tiled := tiled_bodies enclosed
  rw [← breaks] at tiled
  have glyphs : Located.text ∘ List.map (locate a.literalBodies.flatten) =
      List.map Prod.snd := by
    funext stretch
    simp [Located.text, locate, Function.comp_def]
  refine ⟨segments_length f, ?_, ?_⟩
  · rw [parts, Piece.flatten_ofText, text, contents, text_flatten]
  refine ⟨(stretchesAt 0 (Piece.ofText (a.literalBodies.map Located.text).flatten)).map
    fun stretch => (groups f.breaks stretch).map (·.map (locate a.literalBodies.flatten)),
    ?_, ?_, ?_⟩
  · rw [segments, List.forall₂_map_left_iff, List.forall₂_map_right_iff, List.forall₂_same]
    intro stretch member
    rw [List.map_map, glyphs, spell_eq_intercalate]
    refine readsAs_intercalate (by simpa using groups_ne_nil stretch) fun body listed => ?_
    obtain ⟨group, grouped, rfl⟩ := List.mem_map.1 listed
    exact tiled.enclosed f.breaks stretch member group (groups_sublist stretch group grouped)
  · rw [parts, ← glyphs_stretchesAt 0, List.map_map]
    refine List.map_congr_left fun stretch _ => ?_
    rw [Function.comp_apply, text_flatten, List.map_map, glyphs, ← List.map_flatten,
      flatten_groups]
  · have numbered := locate_numberAll [] a.literalBodies
    rw [List.nil_append, List.length_nil] at numbered
    have bodies := escapes_numberAll enclosed (marked_starts _)
    rw [← breaks, ← tiled.escapes] at bodies
    have source := escapes_locate a.literalBodies.flatten
      (numberAll 0 (a.literalBodies.map Located.text))
    rw [numbered, ← bodies, List.map_flatMap] at source
    rw [source, List.flatMap_map]
    refine List.flatMap_congr fun stretch member => ?_
    rw [escapes_locate, escapes_groups (tiled.enclosed f.breaks stretch member)]

/-- Two literals between which an escape sequence ends. -/
def splitEscape : List Lexeme :=
  [⟨[], .string, Text.ofString "\"\\x4\""⟩, ⟨[.char ' '], .string, Text.ofString "\"1%d\""⟩]

/-- The literals are kept apart in the segment, so the escape still ends where it did. -/
theorem segments_literals_splitEscape :
    ∃ (tokens : List Token) (a : Argument) (f : FormatString),
      Token.tokenize [] (Text.ofString "\"\\x4\" \"1%d\"") = .ok tokens ∧
      (∀ t ∈ a.tokens, t ∈ tokens) ∧ ofArgument? a = some f ∧
      f.segments = [Text.ofString "\\x4\" \"1", []] ∧
      f.segments.length = f.directives.length + 1 ∧
      Piece.flatten (f.parts.map (·.piece)) = f.text ∧
      ∃ literals : List (List (List Located)),
        List.Forall₂ (fun segment bodies => ReadsAs segment (bodies.map Located.text))
          f.segments literals ∧
        literals.map (fun bodies => Located.text bodies.flatten) =
          Piece.between (f.parts.map (·.piece)) ∧
        literals.flatMap (fun bodies => bodies.flatMap (Escape.escapes Located.glyph)) =
          a.literalBodies.flatMap (Escape.escapes Located.glyph) := by
  have read : Token.tokenize [] (Text.ofString "\"\\x4\" \"1%d\"") =
      .ok (Token.place [] .first (splitEscape ++ [⟨[], .eof, []⟩])) := by
    have chain : Lexeme.Chain splitEscape [] :=
      .cons (by decide) (by decide) (Head.read_iff_form.1 rfl)
        (.cons (by decide) (by decide) (Head.read_iff_form.1 rfl) .nil)
    have cut := Lexeme.ofText_chain chain (Lexeme.ofText_gaps Lexeme.gaps_nil)
    change Lexeme.ofText (Text.ofString "\"\\x4\" \"1%d\"") = _ at cut
    rw [Token.tokenize, cut]
  have inside : ∀ t ∈ Token.place [] .first splitEscape,
      t ∈ Token.place [] .first (splitEscape ++ [⟨[], .eof, []⟩]) := by
    decide
  exact ⟨_, ⟨Token.place [] .first splitEscape, by decide⟩, _, read, inside, rfl, by cbv,
    segments_literals read inside rfl⟩

end FormatString

end FormatLint
