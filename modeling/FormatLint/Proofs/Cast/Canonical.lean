import FormatLint.Proofs.Cast.Spelling

/-!
Normal spellings are canonical. What counts of a spelling are its names, in order, and the number of its
asterisks: `Spelling.normalize_eq_iff` says that spellings with one normal spelling are those that agree
in both, and `Spelling.names_normalize` and `Spelling.stars_normalize` that a normal spelling agrees with
what it was made of.
-/

namespace FormatLint.Spelling

/-- The names of a type: what stands between blanks and asterisks and is no qualifier. -/
def names (spelling : Text) : List Text :=
  (Text.runs separates spelling).filter (· ∉ qualifiers)

/-- How often a type is a pointer. -/
def stars (spelling : Text) : Nat := spelling.count (.char '*')

def isRelevant (word : Text) : Bool := word ≠ star ∧ word ∉ qualifiers

theorem ne_star_of_solid {name : Text} (solid : ∀ g ∈ name, separates g = false) : name ≠ star := by
  rintro rfl
  exact absurd (solid (.char '*') (by simp [star])) (by decide)

variable {t : Text} {spelled : List Text}

theorem Spells.filter_isRelevant (spells : Spells t spelled) : spelled.filter isRelevant = names t := by
  induction spells with
  | nil => rfl
  | blank blank _ ih => rw [names, Text.runs_separator (separates_of_isBlank blank), ih, names]
  | asterisk _ ih =>
      rw [names, Text.runs_separator (by decide), List.filter_cons_of_neg (by decide), ih, names]
  | name nonempty solid ends _ ih =>
      rw [names, Text.runs_append nonempty solid ends, List.filter_cons, List.filter_cons, ih, names]
      simp [isRelevant, ne_star_of_solid solid]

theorem Spells.count_star (spells : Spells t spelled) : spelled.count star = stars t := by
  induction spells with
  | nil => rfl
  | blank blank _ ih =>
      rw [stars, List.count_cons_of_ne (ne_asterisk_of_isBlank blank), ih, stars]
  | asterisk _ ih => rw [stars, List.count_cons_self, List.count_cons_self, ih, stars]
  | name nonempty solid _ _ ih =>
      have unstarred := List.count_eq_zero.2 fun inside =>
        (separates_eq_false_iff.1 (solid (.char '*') inside)).2 rfl
      rw [stars, List.count_cons_of_ne (ne_star_of_solid solid), List.count_append, unstarred, Nat.zero_add,
        ih, stars]

theorem Spells.isWord (spells : Spells t spelled) : ∀ word ∈ spelled, IsWord word := by
  induction spells with
  | nil => simp
  | blank _ _ ih => exact ih
  | asterisk _ ih => exact List.forall_mem_cons.2 ⟨.inl rfl, ih⟩
  | name nonempty solid _ _ ih =>
      have here := fun g member => separates_eq_false_iff.1 (solid g member)
      exact List.forall_mem_cons.2 ⟨.inr ⟨nonempty, here⟩, ih⟩

theorem filter_words (t : Text) : (words t).filter isRelevant = names t :=
  (spells_words t).filter_isRelevant

theorem count_words (t : Text) : (words t).count star = stars t := (spells_words t).count_star

theorem ofWords_eq (words : List Text) : ofWords words =
    Text.joinWith [.char ' '] (words.filter isRelevant) ++
      List.replicate (words.count star) (.char '*') := by
  have other : star ∉ qualifiers := by decide
  have names : (words.filter (· ∉ qualifiers)).filter (· ≠ star) = words.filter isRelevant := by
    rw [List.filter_filter]
    refine List.filter_congr fun word _ => ?_
    simp [isRelevant]
  rw [ofWords, names, List.count_filter (by simpa using other)]

theorem normalize_eq (t : Text) : normalize t =
    Text.joinWith [.char ' '] (names t) ++ List.replicate (stars t) (.char '*') := by
  rw [normalize, ofWords_eq, filter_words, count_words]

theorem spells_replicate (n : Nat) : Spells (List.replicate n (.char '*')) (List.replicate n star) := by
  induction n with
  | zero => exact .nil
  | succ n ih => exact .asterisk ih

/-- A normal spelling spells the names, and then the asterisks. -/
theorem spells_normalize (t : Text) :
    Spells (normalize t) (names t ++ List.replicate (stars t) star) := by
  have all : ∀ name ∈ names t, IsWord name := by
    intro name member
    rw [← filter_words] at member
    exact (spells_words t).isWord name (List.mem_of_mem_filter member)
  have ends : ∀ g ∈ (List.replicate (stars t) (Glyph.char '*')).head?, separates g = true := by
    intro g first
    obtain rfl := List.eq_of_mem_replicate (List.mem_of_mem_head? first)
    decide
  rw [normalize_eq]
  exact .joinWith all ends (spells_replicate _)

theorem isRelevant_of_mem_names {name : Text} (member : name ∈ names t) : isRelevant name = true := by
  rw [← filter_words] at member
  exact List.of_mem_filter member

theorem names_normalize (t : Text) : names (normalize t) = names t := by
  rw [← (spells_normalize t).filter_isRelevant, List.filter_append,
    List.filter_eq_self.2 fun _ => isRelevant_of_mem_names]
  simp [isRelevant]

theorem stars_normalize (t : Text) : stars (normalize t) = stars t := by
  have other : star ∉ names t := fun member => absurd (isRelevant_of_mem_names member) (by decide)
  rw [← (spells_normalize t).count_star, List.count_append, List.count_eq_zero.2 other,
    List.count_replicate_self, Nat.zero_add]

/-- Two spellings have one normal spelling exactly if they have the same names and as many
asterisks. -/
theorem normalize_eq_iff {s t : Text} :
    normalize s = normalize t ↔ names s = names t ∧ stars s = stars t := by
  constructor
  · intro same
    rw [← names_normalize s, ← stars_normalize s, same, names_normalize, stars_normalize]
    exact ⟨rfl, rfl⟩
  · rintro ⟨names, stars⟩
    rw [normalize_eq, normalize_eq, names, stars]

example : normalize "char *const\t* " = normalize "volatile char**" := by decide +kernel

theorem normalize_normalize (t : Text) : normalize (normalize t) = normalize t :=
  normalize_eq_iff.2 ⟨names_normalize t, stars_normalize t⟩

/-- The known types are listed in their normal spellings. -/
theorem normalize_vocabulary : ∀ entry ∈ vocabulary, normalize entry.1 = entry.1 := by
  decide +kernel

/-- The glyphs of a text as the digits of a number. -/
def numeral (t : Text) : Nat :=
  t.foldl (fun n g => 256 * n + match g with | .char c => c.toNat | .raw byte => byte.toNat) 0

theorem nodup_vocabulary : (vocabulary.map Prod.fst).Nodup := by
  -- numbers are told apart at once, texts glyph by glyph
  have apart : ((vocabulary.map Prod.fst).map numeral).Nodup := by decide +kernel
  exact apart.of_map

theorem family?_eq_some_iff {spelling : Text} {family : Family} :
    family? spelling = some family ↔ (spelling, family) ∈ vocabulary := by
  constructor
  · intro found
    obtain ⟨before, after, whole, _⟩ := List.lookup_eq_some_iff.1 found
    simp [whole]
  · intro listed
    obtain ⟨before, after, whole⟩ := List.append_of_mem listed
    refine List.lookup_eq_some_iff.2 ⟨before, after, whole, fun entry member => ?_⟩
    have distinct := nodup_vocabulary
    rw [whole, List.map_append, List.map_cons, List.nodup_append] at distinct
    have differs := distinct.2.2 entry.1 (List.mem_map_of_mem member) spelling List.mem_cons_self
    simpa using differs.symm

/-- A spelling has a family exactly if a known type has the same names and as many asterisks. -/
theorem family?_normalize_iff {t : Text} {family : Family} :
    family? (normalize t) = some family ↔
      ∃ known, (known, family) ∈ vocabulary ∧ names known = names t ∧ stars known = stars t := by
  rw [family?_eq_some_iff]
  constructor
  · intro listed
    exact ⟨_, listed, names_normalize t, stars_normalize t⟩
  · rintro ⟨known, listed, same⟩
    have normal : normalize known = known := normalize_vocabulary _ listed
    rwa [← normalize_eq_iff.2 same, normal]

end FormatLint.Spelling
