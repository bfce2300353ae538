import FormatLint.Proofs.Format.Escape
import FormatLint.Proofs.Format.Grammar

/-!
The stretches of literal text between directives. Each stretch falls into groups where the source
begins a new literal; `spell_eq_intercalate` says that a segment spells these groups, and
`Tiled.escapes` that together the stretches have the escapes of the whole content.
-/

namespace FormatLint

namespace Enclosed

theorem classes {g : Glyph} {rest : Text} (noSlash : g ≠ .char '\\')
    (whole : Enclosed (g :: rest)) : g ≠ .char '"' ∧ g ≠ .char '\n' := by
  cases whole with
  | escape => exact absurd rfl noSlash
  | plain _ noQuote noFeed => exact ⟨noQuote, noFeed⟩

theorem behind_slashless {before after : Text} (noSlash : ∀ g ∈ before, g ≠ .char '\\')
    (whole : Enclosed (before ++ after)) : Enclosed after := by
  induction before with
  | nil => exact whole
  | cons g before ih =>
      have later := behind_plain (noSlash g List.mem_cons_self) whole
      exact ih (fun p member => noSlash p (List.mem_cons_of_mem g member)) later

end Enclosed

namespace Directive

/-- Whatever the text is, no directive takes a backslash of it. -/
theorem read_noSlash (t : Text) : ∀ g ∈ (read t).1.text, g ≠ .char '\\' := by
  have apart {g : Glyph} (other : g ∉ [Glyph.char '*', .char '.', .char '%', .char '\\']) :
      g ≠ .char '\\' := fun same => other (by simp [same])
  intro g member
  rcases List.mem_cons.1 member with rfl | inside
  · decide
  refine forall_mem_tail (P := (· ≠ .char '\\')) (by decide) (fun g flag => ?_)
    (fun numeral same g digit => ?_) (fun numeral same g digit => ?_) (fun g present => ?_) g inside
  · exact apart (isFlag_classes (List.all_eq_true.1 List.all_takeWhile g flag))
  · exact apart (isDigit_classes ((readWidth_digits same).2 g digit))
  · exact apart (isDigit_classes (readPrecision_digits same g digit))
  · simp only [read, readLetter] at present
    split at present
    · cases present
    · split at present
      · cases present
      · rename_i noSlash
        exact Option.some.inj present ▸ noSlash

end Directive

namespace FormatString

open Escape

/-- The glyphs of a text that begins at the offset `o`. -/
def number (o : Nat) (t : Text) : Stretch := (t.zipIdx o).map Prod.swap

@[simp] theorem number_nil (o : Nat) : number o [] = [] := rfl

@[simp] theorem number_cons (o : Nat) (g : Glyph) (t : Text) :
    number o (g :: t) = (o, g) :: number (o + 1) t := rfl

theorem number_append (o : Nat) (before after : Text) :
    number o (before ++ after) = number o before ++ number (o + before.length) after := by
  simp [number, List.zipIdx_append]

theorem number_glyphs (o : Nat) (t : Text) : (number o t).map Prod.snd = t := by
  induction t generalizing o with
  | nil => rfl
  | cons g t ih => simp [ih]

variable (breaks : List Nat)

/-- The stretch in groups, a new one of which begins at every break. -/
def cutAt : Stretch → List Stretch
  | [] => [[]]
  | item :: rest =>
    if item.1 ∈ breaks then [] :: consStretch [item] (cutAt rest)
    else consStretch [item] (cutAt rest)

/-- The stretch in groups. A break at its start begins no group of its own. -/
def groups : Stretch → List Stretch
  | [] => [[]]
  | item :: rest => consStretch [item] (cutAt breaks rest)

theorem cutAt_cons (item : Nat × Glyph) (rest : Stretch) :
    cutAt breaks (item :: rest) =
      if item.1 ∈ breaks then [] :: groups breaks (item :: rest)
      else groups breaks (item :: rest) := rfl

theorem cutAt_ne_nil (stretch : Stretch) : cutAt breaks stretch ≠ [] := by
  cases stretch with
  | nil => simp [cutAt]
  | cons item rest =>
      unfold cutAt
      split
      · simp
      · cases cutAt breaks rest <;> simp [consStretch]

/-- An item put in front of groups belongs to the first one. -/
theorem exists_consStretch (stretch : Stretch) {stretches : List Stretch}
    (nonempty : stretches ≠ []) : ∃ first later, stretches = first :: later ∧
      consStretch stretch stretches = (stretch ++ first) :: later := by
  cases stretches with
  | nil => exact absurd rfl nonempty
  | cons first later => exact ⟨first, later, rfl, rfl⟩

theorem intercalate_consStretch {β : Type} (separator : List β) (f : Nat × Glyph → β)
    (item : Nat × Glyph) {stretches : List Stretch} (nonempty : stretches ≠ []) :
    separator.intercalate ((consStretch [item] stretches).map (·.map f)) =
      f item :: separator.intercalate (stretches.map (·.map f)) := by
  obtain ⟨first, later, rfl, same⟩ := exists_consStretch [item] nonempty
  rw [same]
  simp [List.intercalate_cons_cons_left]

/-- A separator between the groups stands in front of every item at a break. -/
theorem intercalate_cutAt {β : Type} (separator : List β) (f : Nat × Glyph → β)
    (stretch : Stretch) :
    separator.intercalate ((cutAt breaks stretch).map (·.map f)) =
      stretch.flatMap fun item =>
        if item.1 ∈ breaks then separator ++ [f item] else [f item] := by
  induction stretch with
  | nil => rfl
  | cons item rest ih =>
      have front := intercalate_consStretch separator f item (cutAt_ne_nil breaks rest)
      obtain ⟨first, later, _, same⟩ := exists_consStretch [item] (cutAt_ne_nil breaks rest)
      unfold cutAt
      rw [List.flatMap_cons, ← ih]
      split
      · rw [List.map_cons]
        rw [same, List.map_cons] at front ⊢
        rw [List.intercalate_cons_cons, front]
        simp
      · exact front

/-- A segment spells the groups of its stretch as literals, one blank apart. -/
theorem spell_eq_intercalate (stretch : Stretch) :
    spell breaks stretch =
      (Text.ofString "\" \"").intercalate ((groups breaks stretch).map (·.map Prod.snd)) := by
  cases stretch with
  | nil => rfl
  | cons item rest =>
      have front := intercalate_consStretch (Text.ofString "\" \"") Prod.snd item
        (cutAt_ne_nil breaks rest)
      have back := intercalate_cutAt breaks (Text.ofString "\" \"") Prod.snd rest
      change _ = (Text.ofString "\" \"").intercalate
        ((consStretch [item] (cutAt breaks rest)).map (·.map Prod.snd))
      rw [front, back]
      rfl

theorem flatten_cutAt (stretch : Stretch) : (cutAt breaks stretch).flatten = stretch := by
  induction stretch with
  | nil => rfl
  | cons item rest ih =>
      obtain ⟨first, later, whole, same⟩ :=
        exists_consStretch [item] (cutAt_ne_nil breaks rest)
      rw [whole] at ih
      unfold cutAt
      rw [same]
      split <;> simp [← ih]

theorem flatten_groups (stretch : Stretch) : (groups breaks stretch).flatten = stretch := by
  cases stretch with
  | nil => rfl
  | cons item rest =>
      have whole := flatten_cutAt breaks (item :: rest)
      rw [cutAt_cons] at whole
      split at whole
      · simpa using whole
      · exact whole

/-- The stretches of a text that begins at an offset. No break separates a backslash from the glyph
behind it, and no directive has a backslash. -/
inductive Tiled : Nat → Text → List Stretch → Prop
  | nil {o : Nat} : Tiled o [] [[]]
  | escape {o : Nat} {g : Glyph} {rest : Text} {first : Stretch} {later : List Stretch}
      (joined : o + 1 ∉ breaks) (next : Tiled (o + 2) rest (first :: later)) :
      Tiled o (.char '\\' :: g :: rest) (((o, .char '\\') :: (o + 1, g) :: first) :: later)
  | plain {o : Nat} {g : Glyph} {rest : Text} {first : Stretch} {later : List Stretch}
      (noSlash : g ≠ .char '\\') (noQuote : g ≠ .char '"') (noFeed : g ≠ .char '\n')
      (next : Tiled (o + 1) rest (first :: later)) :
      Tiled o (g :: rest) (((o, g) :: first) :: later)
  | percent {o : Nat} {rest : Text} {first : Stretch} {later : List Stretch}
      (next : Tiled (o + 2) rest (first :: later)) :
      Tiled o (.char '%' :: .char '%' :: rest) (((o, .char '%') :: first) :: later)
  | directive {o : Nat} {word rest : Text} {stretches : List Stretch}
      (starts : word.head? = some (.char '%')) (noSlash : ∀ g ∈ word, g ≠ .char '\\')
      (next : Tiled (o + word.length) rest stretches) : Tiled o (word ++ rest) ([] :: stretches)

theorem mem_cutAt_cons {item : Nat × Glyph} {rest first group : Stretch} {later : List Stretch}
    (cut : cutAt breaks rest = first :: later) (member : group ∈ cutAt breaks (item :: rest)) :
    group = [] ∨ group = item :: first ∨ group ∈ later := by
  unfold cutAt at member
  rw [cut] at member
  split at member
  · exact List.mem_cons.1 member |>.imp_right List.mem_cons.1
  · exact .inr (List.mem_cons.1 member)

theorem cutAt_joined {item : Nat × Glyph} {rest first : Stretch} {later : List Stretch}
    (joined : item.1 ∉ breaks) (cut : cutAt breaks rest = first :: later) :
    cutAt breaks (item :: rest) = (item :: first) :: later := by
  simp [cutAt, joined, cut, consStretch]

theorem enclosed_cutAt_plain {item : Nat × Glyph} {rest : Stretch}
    (noSlash : item.2 ≠ .char '\\') (noQuote : item.2 ≠ .char '"')
    (noFeed : item.2 ≠ .char '\n')
    (enclosed : ∀ group ∈ cutAt breaks rest, Enclosed (group.map Prod.snd)) :
    ∀ group ∈ cutAt breaks (item :: rest), Enclosed (group.map Prod.snd) := by
  obtain ⟨front, back, cut⟩ := List.exists_cons_of_ne_nil (cutAt_ne_nil breaks rest)
  rw [cut] at enclosed
  intro group inside
  rcases mem_cutAt_cons breaks cut inside with rfl | rfl | inside
  · exact .nil
  · exact .plain noSlash noQuote noFeed (enclosed front List.mem_cons_self)
  · exact enclosed group (List.mem_cons_of_mem front inside)

theorem Tiled.enclosed {o : Nat} {t : Text} {stretches : List Stretch}
    (tiled : Tiled breaks o t stretches) :
    ∀ stretch ∈ stretches, ∀ group ∈ cutAt breaks stretch, Enclosed (group.map Prod.snd) := by
  have alone : ∀ group ∈ cutAt breaks [], Enclosed (group.map Prod.snd) := by
    intro group member
    rw [List.mem_singleton.1 member]
    exact .nil
  induction tiled with
  | nil =>
      intro stretch member
      rw [List.mem_singleton.1 member]
      exact alone
  | escape joined next ih =>
      intro stretch member
      rcases List.mem_cons.1 member with rfl | member
      · obtain ⟨front, back, cut⟩ := List.exists_cons_of_ne_nil (cutAt_ne_nil breaks _)
        have groups := ih _ List.mem_cons_self
        rw [cut] at groups
        intro group inside
        rcases mem_cutAt_cons breaks (cutAt_joined breaks joined cut) inside with
          rfl | rfl | inside
        · exact .nil
        · exact .escape (groups front List.mem_cons_self)
        · exact groups group (List.mem_cons_of_mem front inside)
      · exact ih stretch (List.mem_cons_of_mem _ member)
  | plain noSlash noQuote noFeed next ih =>
      intro stretch member
      rcases List.mem_cons.1 member with rfl | member
      · exact enclosed_cutAt_plain breaks noSlash noQuote noFeed (ih _ List.mem_cons_self)
      · exact ih stretch (List.mem_cons_of_mem _ member)
  | percent next ih =>
      intro stretch member
      rcases List.mem_cons.1 member with rfl | member
      · exact enclosed_cutAt_plain breaks (by simp) (by simp) (by simp)
          (ih _ List.mem_cons_self)
      · exact ih stretch (List.mem_cons_of_mem _ member)
  | directive _ _ next ih =>
      intro stretch member
      rcases List.mem_cons.1 member with rfl | member
      · exact alone
      · exact ih stretch member

variable {breaks}

/-- The mark that stands for the end of one literal and the beginning of the next. -/
def mark : Nat × Glyph := (0, .char '"')

def spread (breaks : List Nat) (stretch : Stretch) : Stretch :=
  stretch.flatMap fun item => if item.1 ∈ breaks then [mark, item] else [item]

theorem spread_cons (item : Nat × Glyph) (rest : Stretch) :
    spread breaks (item :: rest) = spread breaks [item] ++ spread breaks rest := by
  simp [spread]

theorem spread_append (before after : Stretch) :
    spread breaks (before ++ after) = spread breaks before ++ spread breaks after := by
  simp [spread]

theorem escapes_spread_plain {item : Nat × Glyph} (rest : Stretch)
    (noSlash : item.2 ≠ .char '\\') :
    escapes Prod.snd (spread breaks (item :: rest)) = escapes Prod.snd (spread breaks rest) := by
  have noMark : mark.2 ≠ .char '\\' := by decide
  rw [spread_cons]
  simp only [spread, List.flatMap_singleton]
  split
  · rw [List.cons_append, List.singleton_append, escapes_plain Prod.snd noMark,
      escapes_plain Prod.snd noSlash]
  · rw [List.singleton_append, escapes_plain Prod.snd noSlash]

theorem escapes_spread_number {o : Nat} {word : Text} (rest : Stretch)
    (noSlash : ∀ g ∈ word, g ≠ .char '\\') :
    escapes Prod.snd (spread breaks (number o word ++ rest)) =
      escapes Prod.snd (spread breaks rest) := by
  induction word generalizing o with
  | nil => rfl
  | cons g word ih =>
      rw [number_cons, List.cons_append, escapes_spread_plain _ (noSlash g List.mem_cons_self)]
      exact ih fun p member => noSlash p (List.mem_cons_of_mem g member)

theorem escapes_spread_escape {o : Nat} {g : Glyph} (rest : Stretch) (joined : o + 1 ∉ breaks) :
    escapes Prod.snd (spread breaks ((o, .char '\\') :: (o + 1, g) :: rest)) =
      ((o, .char '\\') :: (o + 1, g) :: digits Prod.snd (o + 1, g) (spread breaks rest)) ::
        escapes Prod.snd (spread breaks rest) := by
  have noMark : mark.2 ≠ .char '\\' := by decide
  have second : spread breaks ((o + 1, g) :: rest) = (o + 1, g) :: spread breaks rest := by
    simp [spread, joined]
  rw [spread_cons, second]
  simp only [spread, List.flatMap_singleton]
  split
  · rw [List.cons_append, List.singleton_append, escapes_plain Prod.snd noMark,
      escapes_escape Prod.snd rfl]
  · rw [List.singleton_append, escapes_escape Prod.snd rfl]

theorem stops_spread {item : Nat × Glyph} {rest : Stretch} (percent : item.2 = .char '%') :
    Stops Prod.snd (spread breaks (item :: rest)) := by
  intro first member
  simp only [spread, List.flatMap_cons] at member
  split at member
  · cases Option.some.inj member
    exact .inl rfl
  · cases Option.some.inj member
    exact .inr percent

/-- An escape in front of the first stretch takes the same digits there as in the content. -/
theorem Tiled.sameRun {o : Nat} {t : Text} {stretches : List Stretch}
    (tiled : Tiled breaks o t stretches) :
    SameRun Prod.snd (spread breaks (stretches.headD [])) (spread breaks (number o t)) := by
  induction tiled with
  | nil => exact SameRun.refl _
  | @escape o g rest first later _ next ih =>
      have run := ih.append (spread breaks [(o, .char '\\'), (o + 1, g)])
      rw [← spread_append, ← spread_append] at run
      exact run
  | @plain o g rest first later _ _ _ next ih =>
      have run := ih.append (spread breaks [(o, g)])
      rw [← spread_append, ← spread_append] at run
      exact run
  | percent next ih => exact SameRun.of_stops (stops_spread rfl) (stops_spread rfl)
  | @directive o word rest stretches starts _ next ih =>
      have nothing : Stops Prod.snd (spread breaks []) := fun _ member => by cases member
      refine SameRun.of_stops nothing ?_
      cases word with
      | nil => cases starts
      | cons g word => exact stops_spread (Option.some.inj starts)

/-- The stretches have the escapes of the content. -/
theorem Tiled.escapes {o : Nat} {t : Text} {stretches : List Stretch}
    (tiled : Tiled breaks o t stretches) :
    stretches.flatMap (fun stretch => Escape.escapes Prod.snd (spread breaks stretch)) =
      Escape.escapes Prod.snd (spread breaks (number o t)) := by
  induction tiled with
  | nil => rfl
  | @escape o g rest first later joined next ih =>
      have run := next.sameRun.digits (o + 1, g)
      rw [List.headD_cons] at run
      rw [List.flatMap_cons] at ih ⊢
      rw [escapes_spread_escape first joined, run, number_cons, number_cons,
        escapes_spread_escape _ joined, ← ih]
      rfl
  | plain noSlash _ _ next ih =>
      rw [List.flatMap_cons] at ih ⊢
      rw [escapes_spread_plain _ noSlash, number_cons, escapes_spread_plain _ noSlash, ← ih]
  | percent next ih =>
      have noSlash : Glyph.char '%' ≠ .char '\\' := by decide
      rw [List.flatMap_cons] at ih ⊢
      rw [escapes_spread_plain _ noSlash, number_cons, number_cons,
        escapes_spread_plain _ noSlash, escapes_spread_plain _ noSlash, ← ih]
  | directive _ noSlash next ih =>
      rw [number_append, escapes_spread_number _ noSlash, ← ih]
      rfl

end FormatString

end FormatLint
