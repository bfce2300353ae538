import FormatLint.CType.Spelling
import Mathlib

/-!
The words of a spelling. `Spelling.Spells` derives a text from its words, and `Spelling.spells_words`
says that these are the words that it is cut into. The normal spelling of words begins with the first
one that counts.
-/

namespace FormatLint

namespace Text

/-- The maximal runs of glyphs that do not separate. -/
def runs (separates : Glyph → Bool) (t : Text) : List Text :=
  (t.splitOnP separates).filter (· ≠ [])

section Runs

variable {separates : Glyph → Bool}

theorem runs_separator {g : Glyph} (separator : separates g = true) (t : Text) :
    runs separates (g :: t) = runs separates t := by
  simp [runs, List.splitOnP_cons_eq_if_modifyHead, separator]

/-- A run up to the separator behind it. -/
theorem runs_append {run : Text} (nonempty : run ≠ []) (solid : ∀ g ∈ run, separates g = false)
    {t : Text} (behind : ∀ g ∈ t.head?, separates g = true) :
    runs separates (run ++ t) = run :: runs separates t := by
  cases t with
  | nil => simp [runs, List.splitOnP_eq_singleton solid, nonempty]
  | cons g t =>
      have separator := behind g rfl
      simp [runs, List.splitOnP_append_cons _ _ separator, List.splitOnP_eq_singleton solid,
        List.splitOnP_cons_eq_if_modifyHead, separator, nonempty]

theorem exists_run {t : Text} (nonempty : t ≠ []) (first : ∀ g ∈ t.head?, separates g = false) :
    ∃ run behind, t = run ++ behind ∧ run ≠ [] ∧ (∀ g ∈ run, separates g = false) ∧
      ∀ g ∈ behind.head?, separates g = true := by
  refine ⟨t.takeWhile (!separates ·), t.dropWhile (!separates ·),
    List.takeWhile_append_dropWhile.symm, ?_, ?_, ?_⟩
  · obtain ⟨g, later, rfl⟩ := List.exists_cons_of_ne_nil nonempty
    simp [first g rfl]
  · intro g member
    simpa using List.all_eq_true.1 List.all_takeWhile g member
  · intro g head
    have stopped := List.head?_dropWhile_not (!separates ·) t
    rw [Option.mem_def.1 head] at stopped
    simpa using stopped

end Runs

theorem words_blank {g : Glyph} (blank : g.isBlank = true) (t : Text) : words (g :: t) = words t :=
  runs_separator blank t

/-- A word up to the blank behind it. -/
theorem words_append {word : Text} (nonempty : word ≠ []) (solid : ∀ g ∈ word, g.isBlank = false)
    {t : Text} (behind : ∀ g ∈ t.head?, g.isBlank = true) : words (word ++ t) = word :: words t :=
  runs_append nonempty solid behind

end Text

namespace Spelling

/-- The text is an asterisk or a word without one. -/
def IsWord (word : Text) : Prop :=
  word = star ∨ word ≠ [] ∧ ∀ g ∈ word, g.isBlank = false ∧ g ≠ .char '*'

def separates (g : Glyph) : Bool := g.isBlank || g = .char '*'

theorem separates_eq_false_iff {g : Glyph} :
    separates g = false ↔ g.isBlank = false ∧ g ≠ .char '*' := by
  simp [separates]

theorem separates_of_isBlank {g : Glyph} (blank : g.isBlank = true) : separates g = true := by
  simp [separates, blank]

theorem ne_asterisk_of_isBlank {g : Glyph} (blank : g.isBlank = true) : g ≠ .char '*' := by
  rintro rfl
  exact absurd blank (by decide)

/-- The text spells the words. Blanks spell nothing, every asterisk is a word of its own, and a name
goes on up to a blank or an asterisk. -/
inductive Spells : Text → List Text → Prop
  | nil : Spells [] []
  | blank {g : Glyph} {t : Text} {words : List Text} (blank : g.isBlank = true)
      (rest : Spells t words) : Spells (g :: t) words
  | asterisk {t : Text} {words : List Text} (rest : Spells t words) :
      Spells (.char '*' :: t) (star :: words)
  | name {name t : Text} {words : List Text} (nonempty : name ≠ [])
      (solid : ∀ g ∈ name, separates g = false) (ends : ∀ g ∈ t.head?, separates g = true)
      (rest : Spells t words) : Spells (name ++ t) (name :: words)

theorem exists_spells (t : Text) : ∃ words, Spells t words := by
  induction length : t.length using Nat.strong_induction_on generalizing t with
  | _ n ih =>
    cases t with
    | nil => exact ⟨[], .nil⟩
    | cons g later =>
      cases separator : separates g with
      | true =>
          obtain ⟨words, rest⟩ := ih _ (by simp [← length]) later rfl
          by_cases blank : g.isBlank = true
          · exact ⟨words, .blank blank rest⟩
          · have asterisk : g = .char '*' := by simpa [separates, blank] using separator
            subst asterisk
            exact ⟨_, .asterisk rest⟩
      | false =>
          obtain ⟨name, behind, whole, nonempty, solid, ends⟩ :=
            Text.exists_run (List.cons_ne_nil g later) (by simpa using separator)
          have shorter : behind.length < n := by
            have positive := List.length_pos_iff.2 nonempty
            rw [← length, whole, List.length_append]
            omega
          obtain ⟨words, rest⟩ := ih _ shorter behind rfl
          rw [whole]
          exact ⟨_, .name nonempty solid ends rest⟩

theorem Spells.words_eq {t : Text} {spelled : List Text} (spells : Spells t spelled) :
    words t = spelled := by
  induction spells with
  | nil => rfl
  | blank blank _ ih =>
      rw [words, List.flatMap_cons, if_neg (ne_asterisk_of_isBlank blank)]
      exact (Text.words_blank blank _).trans ih
  | @asterisk t names _ ih =>
      have solid : ∀ g ∈ star, g.isBlank = false := by decide
      have behind : ∀ g ∈ (Glyph.char ' ' :: t).head?, g.isBlank = true := by
        rintro g ⟨⟩
        decide
      rw [words, List.flatMap_cons, if_pos rfl]
      refine (Text.words_blank (by decide) _).trans ?_
      refine (Text.words_append (List.cons_ne_nil _ _) solid ?_).trans ?_
      · rintro g ⟨⟩
        decide
      · exact congrArg (star :: ·) ((Text.words_blank (by decide) _).trans ih)
  | @name name t names nonempty solid ends _ ih =>
      have same : (name.flatMap fun g =>
          if g = .char '*' then [.char ' ', .char '*', .char ' '] else [g]) = name := by
        refine (List.flatMap_congr fun g member => if_neg ?_).trans (List.flatMap_singleton' name)
        exact (separates_eq_false_iff.1 (solid g member)).2
      rw [words, List.flatMap_append, same, Text.words_append nonempty
        (fun g member => (separates_eq_false_iff.1 (solid g member)).1)]
      · exact congrArg (name :: ·) ih
      · cases t with
        | nil => simp
        | cons g t =>
            rw [List.flatMap_cons]
            split
            · rintro p ⟨⟩
              decide
            · rename_i other
              rintro p ⟨⟩
              simpa [separates, other] using ends g rfl

theorem spells_words (t : Text) : Spells t (words t) := by
  obtain ⟨spelled, spells⟩ := exists_spells t
  rwa [spells.words_eq]

/-- A word is spelled up to a blank, an asterisk or the end. -/
theorem IsWord.spells {word t : Text} {words : List Text} (isWord : IsWord word)
    (ends : ∀ g ∈ t.head?, separates g = true) (rest : Spells t words) :
    Spells (word ++ t) (word :: words) := by
  rcases isWord with rfl | ⟨nonempty, solid⟩
  · exact .asterisk rest
  · exact .name nonempty (fun g member => separates_eq_false_iff.2 (solid g member)) ends rest

/-- Words that are put one space apart are spelled in front of what is set apart from them. -/
theorem Spells.joinWith {parts : List Text} (all : ∀ part ∈ parts, IsWord part) {t : Text}
    {words : List Text} (ends : ∀ g ∈ t.head?, separates g = true) (rest : Spells t words) :
    Spells (Text.joinWith [.char ' '] parts ++ t) (parts ++ words) := by
  induction parts with
  | nil => exact rest
  | cons part later ih =>
      obtain ⟨here, behind⟩ := List.forall_mem_cons.1 all
      cases later with
      | nil =>
          rw [Text.joinWith, List.intercalate_singleton]
          exact here.spells ends rest
      | cons next later =>
          rw [Text.joinWith, List.intercalate_cons_cons, List.append_assoc, List.append_assoc,
            List.cons_append]
          refine here.spells ?_ (.blank (by decide) (ih behind))
          rintro g ⟨⟩
          decide

theorem words_joinWith {parts : List Text} (all : ∀ part ∈ parts, IsWord part) :
    words (Text.joinWith [.char ' '] parts) = parts := by
  have whole := (Spells.joinWith all (t := []) (by simp) .nil).words_eq
  rwa [List.append_nil, List.append_nil] at whole

/-- A normal spelling begins with a name if one of its words is a name and no qualifier. -/
theorem head_ofWords {words : List Text} (all : ∀ word ∈ words, IsWord word) :
    (ofWords words).head?.any (· ≠ .char '*') = true ↔
      ∃ word ∈ words, word ≠ star ∧ word ∉ qualifiers := by
  have spelled : ofWords words = Text.joinWith [.char ' '] ((words.filter (· ∉ qualifiers)).filter
      (· ≠ star)) ++ List.replicate ((words.filter (· ∉ qualifiers)).count star) (.char '*') := rfl
  rw [spelled]
  generalize (words.filter (· ∉ qualifiers)).count star = stars
  generalize found : (words.filter (· ∉ qualifiers)).filter (· ≠ star) = names
  have listed (word : Text) : word ∈ names ↔ word ∈ words ∧ word ≠ star ∧ word ∉ qualifiers := by
    rw [← found, List.mem_filter, List.mem_filter, decide_eq_true_eq, decide_eq_true_eq]
    tauto
  simp only [← listed]
  cases names with
  | nil => cases stars <;> simp [Text.joinWith, List.replicate_succ]
  | cons name later =>
      obtain ⟨member, noStar, _⟩ := (listed name).1 List.mem_cons_self
      obtain ⟨nonempty, solid⟩ := (all name member).resolve_left noStar
      obtain ⟨g, rest, rfl⟩ := List.exists_cons_of_ne_nil nonempty
      have first : (Text.joinWith [.char ' '] ((g :: rest) :: later)).head? = some g := by
        cases later with
        | nil => simp [Text.joinWith]
        | cons next later => simp [Text.joinWith, List.intercalate_cons_cons]
      have other := (solid g List.mem_cons_self).2
      simp [first, other]

end Spelling

end FormatLint
