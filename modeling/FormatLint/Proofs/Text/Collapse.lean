import FormatLint.Proofs.Cast.Spelling

/-!
Texts with one space for each run of blanks. `Text.squeeze_eq_collapse` says that the words of a text, one
space apart, are the text so collapsed, and `Text.squeeze_eq_self_iff` which texts that leaves as they are.
-/

namespace FormatLint

namespace Text

/-- The text with one space for each run of blanks. If a blank comes before it, the run that it begins
with leaves nothing. -/
def collapse (behindBlank : Bool) : Text → Text
  | [] => []
  | g :: rest =>
    if g.isBlank then
      if behindBlank then collapse true rest else .char ' ' :: collapse true rest
    else g :: collapse false rest

/-- Whether a blank comes before what follows the text. -/
def endsBlank (behindBlank : Bool) (t : Text) : Bool := t.foldl (fun _ g => g.isBlank) behindBlank

variable {b : Bool} {g : Glyph} {t rest : Text}

theorem collapse_blank (blank : g.isBlank = true) :
    collapse b (g :: rest) = if b then collapse true rest else .char ' ' :: collapse true rest := by
  rw [collapse, if_pos blank]

theorem collapse_cons (solid : g.isBlank = false) :
    collapse b (g :: rest) = g :: collapse false rest := by
  rw [collapse, if_neg (by simp [solid])]

theorem collapse_append (b : Bool) (t u : Text) :
    collapse b (t ++ u) = collapse b t ++ collapse (endsBlank b t) u := by
  induction t generalizing b with
  | nil => rfl
  | cons g t ih =>
      have rest := ih g.isBlank
      change _ = _ ++ collapse (endsBlank g.isBlank t) u
      cases blank : g.isBlank with
      | true =>
          rw [blank] at rest
          rw [List.cons_append, collapse_blank blank, collapse_blank blank, rest]
          cases b <;> rfl
      | false =>
          rw [blank] at rest
          rw [List.cons_append, collapse_cons blank, collapse_cons blank, rest]
          rfl

theorem endsBlank_append (b : Bool) (t u : Text) :
    endsBlank b (t ++ u) = endsBlank (endsBlank b t) u := List.foldl_append

theorem collapse_solid (solid : ∀ g ∈ t, g.isBlank = false) : collapse b t = t := by
  induction t generalizing b with
  | nil => rfl
  | cons g t ih =>
      obtain ⟨here, later⟩ := List.forall_mem_cons.1 solid
      rw [collapse_cons here, ih later]

/-- The only blanks that are left are spaces. -/
theorem eq_space_of_mem_collapse (member : g ∈ collapse b t) (blank : g.isBlank = true) :
    g = .char ' ' := by
  induction t generalizing b with
  | nil => cases member
  | cons first t ih =>
      cases head : first.isBlank with
      | true =>
          rw [collapse_blank head] at member
          cases b with
          | true => exact ih member
          | false => exact (List.mem_cons.1 member).elim id ih
      | false =>
          rw [collapse_cons head] at member
          rcases List.mem_cons.1 member with rfl | member
          · rw [head] at blank
            cases blank
          · exact ih member

theorem eq_space_of_mem_collapse_blanks (blanks : ∀ g ∈ t, g.isBlank = true)
    (member : g ∈ collapse b t) : g = .char ' ' := by
  induction t generalizing b with
  | nil => cases member
  | cons first t ih =>
      obtain ⟨here, later⟩ := List.forall_mem_cons.1 blanks
      rw [collapse_blank here] at member
      cases b with
      | true => exact ih later member
      | false => exact (List.mem_cons.1 member).elim id (ih later)

theorem collapse_ne_feed (member : g ∈ collapse b t) : g ≠ .char '\n' := by
  rintro rfl
  cases eq_space_of_mem_collapse member (by decide)

/-- The text begins and ends with glyphs that are not blank. -/
structure Edged (t : Text) : Prop where
  nonempty : t ≠ []
  first : ∀ g ∈ t.head?, g.isBlank = false
  last : ∀ g ∈ t.getLast?, g.isBlank = false

theorem Edged.of_solid (nonempty : t ≠ []) (solid : ∀ g ∈ t, g.isBlank = false) : Edged t :=
  ⟨nonempty, fun g first => solid g (List.mem_of_mem_head? first),
    fun g last => solid g (List.mem_of_mem_getLast? last)⟩

theorem endsBlank_of_last (nonempty : t ≠ []) (last : ∀ g ∈ t.getLast?, g.isBlank = false) :
    endsBlank b t = false := by
  obtain ⟨front, g, rfl⟩ := List.eq_nil_or_concat' t |>.resolve_left nonempty
  rw [endsBlank, List.foldl_append]
  exact last g (by simp)

theorem collapse_ne_nil (nonempty : t ≠ []) (last : ∀ g ∈ t.getLast?, g.isBlank = false) :
    collapse b t ≠ [] := by
  obtain ⟨front, g, rfl⟩ := List.eq_nil_or_concat' t |>.resolve_left nonempty
  rw [collapse_append, collapse_cons (last g (by simp))]
  simp

/-- What comes before a text matters only for the blanks that it begins with. -/
theorem Edged.collapse_eq (edged : Edged t) : collapse b t = collapse true t := by
  obtain ⟨g, later, rfl⟩ := List.exists_cons_of_ne_nil edged.nonempty
  have solid := edged.first g rfl
  rw [collapse_cons solid, collapse_cons solid]

theorem exists_word (nonempty : t ≠ []) (first : ∀ g ∈ t.head?, g.isBlank = false) :
    ∃ word behind, t = word ++ behind ∧ word ≠ [] ∧ (∀ g ∈ word, g.isBlank = false) ∧
      ∀ g ∈ behind.head?, g.isBlank = true :=
  exists_run nonempty first

theorem collapse_word {word : Text} (nonempty : word ≠ []) (solid : ∀ g ∈ word, g.isBlank = false)
    (behind : Text) : collapse b (word ++ behind) = word ++ collapse false behind := by
  rw [collapse_append, collapse_solid solid,
    endsBlank_of_last nonempty fun g final => solid g (List.mem_of_mem_getLast? final)]

theorem squeeze_word {word behind : Text} (nonempty : word ≠ [])
    (solid : ∀ g ∈ word, g.isBlank = false) (blank : g.isBlank = true) (more : squeeze behind ≠ []) :
    squeeze (word ++ g :: behind) = word ++ .char ' ' :: squeeze behind := by
  rw [squeeze, words_append nonempty solid (by simpa using blank), words_blank blank]
  cases listed : words behind with
  | nil => exact absurd (by rw [squeeze, listed]; rfl) more
  | cons next others =>
      rw [joinWith, List.intercalate_cons_cons, squeeze, joinWith, listed]
      simp

/-- The words of a text, one space apart, are the text with its runs of blanks collapsed. -/
theorem squeeze_eq_collapse (last : ∀ g ∈ t.getLast?, g.isBlank = false) :
    squeeze t = collapse true t := by
  induction length : t.length using Nat.strong_induction_on generalizing t with
  | _ n ih =>
    cases t with
    | nil => rfl
    | cons g later =>
      cases blank : g.isBlank with
      | true =>
          have behind : ∀ g ∈ later.getLast?, g.isBlank = false := by
            intro other final
            apply last
            rw [List.getLast?_cons, Option.mem_def.1 final]
            rfl
          have shorter : later.length < n := by simp [← length]
          rw [squeeze, words_blank blank, collapse_blank blank, if_pos rfl]
          exact ih _ shorter behind rfl
      | false =>
          obtain ⟨word, behind, whole, nonempty, solid, blanks⟩ :=
            exists_word (List.cons_ne_nil g later) (by simpa using blank)
          rw [whole] at last length ⊢
          rw [collapse_word nonempty solid]
          cases behind with
          | nil =>
              rw [squeeze, words_append nonempty solid (by simp)]
              simp [words, List.splitOnP_nil, joinWith, collapse]
          | cons first behind =>
              have space := blanks first rfl
              -- the text does not end with this blank, so that a word comes behind it
              have more : behind ≠ [] := by
                rintro rfl
                have solid := last first (by simp)
                rw [space] at solid
                cases solid
              have final : ∀ g ∈ behind.getLast?, g.isBlank = false := by
                intro other member
                apply last
                rw [List.getLast?_append, List.getLast?_cons, Option.mem_def.1 member]
                rfl
              have shorter : behind.length < n := by
                rw [← length, List.length_append, List.length_cons]
                omega
              have rest := ih _ shorter final rfl
              have filled : squeeze behind ≠ [] := by
                rw [rest]
                exact collapse_ne_nil more final
              rw [squeeze_word nonempty solid space filled, rest, collapse_blank space,
                if_neg Bool.false_ne_true]

theorem squeeze_solid (solid : ∀ g ∈ t, g.isBlank = false) : squeeze t = t := by
  rw [squeeze_eq_collapse fun g last => solid g (List.mem_of_mem_getLast? last), collapse_solid solid]

theorem Edged.collapse_squeeze (edged : Edged t) : collapse b t = squeeze t := by
  rw [squeeze_eq_collapse edged.last, edged.collapse_eq]

theorem Edged.squeeze_ne_nil (edged : Edged t) : squeeze t ≠ [] := by
  rw [squeeze_eq_collapse edged.last]
  exact collapse_ne_nil edged.nonempty edged.last

theorem words_blanks (blanks : ∀ g ∈ t, g.isBlank = true) : words t = [] := by
  induction t with
  | nil => simp [words, List.splitOnP_nil]
  | cons g t ih =>
      obtain ⟨here, later⟩ := List.forall_mem_cons.1 blanks
      rw [words_blank here, ih later]

theorem squeeze_append_blanks {u : Text} (blanks : ∀ g ∈ u, g.isBlank = true) :
    squeeze (t ++ u) = squeeze t := by
  have same : words (t ++ u) = words t := by
    cases u with
    | nil => rw [List.append_nil]
    | cons g u =>
        obtain ⟨here, later⟩ := List.forall_mem_cons.1 blanks
        have wordless := words_blanks later
        rw [words] at wordless ⊢
        rw [List.splitOnP_append_cons _ _ here, List.filter_append, wordless, List.append_nil]
        rfl
  rw [squeeze, same, squeeze]

theorem trimRight_last (t : Text) : ∀ g ∈ (trimRight t).getLast?, g.isBlank = false := by
  intro g final
  have stopped := List.head?_dropWhile_not Glyph.isBlank t.reverse
  rw [trimRight, List.getLast?_reverse, Option.mem_def] at final
  rw [final] at stopped
  simpa using stopped

theorem squeeze_trimRight (t : Text) : squeeze t = squeeze (trimRight t) := by
  obtain ⟨blanks, whole, blank⟩ := trimRight_append_blanks t
  conv => lhs; rw [whole, squeeze_append_blanks blank]

/-- Behind a glyph that is not blank, what is left of a text is collapsed and no line ends in it. -/
theorem squeeze_append (nonempty : t ≠ []) (last : ∀ g ∈ t.getLast?, g.isBlank = false) (u : Text) :
    ∃ v, squeeze (t ++ u) = collapse true t ++ v ∧ ∀ g ∈ v, g ≠ .char '\n' := by
  obtain ⟨blanks, whole, blank⟩ := trimRight_append_blanks u
  have ends : ∀ g ∈ (t ++ trimRight u).getLast?, g.isBlank = false := by
    intro g final
    rw [List.getLast?_append] at final
    cases trimmed : (trimRight u).getLast? with
    | none =>
        rw [trimmed] at final
        exact last g final
    | some other =>
        rw [trimmed] at final
        obtain rfl := Option.some.inj final
        exact trimRight_last u _ trimmed
  have trimmed : squeeze (t ++ u) = squeeze (t ++ trimRight u) := by
    conv => lhs; rw [whole, ← List.append_assoc, squeeze_append_blanks blank]
  refine ⟨collapse false (trimRight u), ?_, fun g member => collapse_ne_feed member⟩
  rw [trimmed, squeeze_eq_collapse ends, collapse_append, endsBlank_of_last nonempty last]

/-- Every blank is a space between two other glyphs that are not blank. -/
structure Spaced (t : Text) : Prop where
  last : ∀ g ∈ t.getLast?, g.isBlank = false
  single : ∀ front g back, t = front ++ g :: back → g.isBlank = true →
    g = .char ' ' ∧ ∃ previous ∈ front.getLast?, previous.isBlank = false

theorem length_collapse_le (b : Bool) (t : Text) : (collapse b t).length ≤ t.length := by
  induction t generalizing b with
  | nil => exact Nat.le_refl _
  | cons g t ih =>
      rw [collapse]
      split
      · split
        · exact Nat.le_succ_of_le (ih true)
        · exact Nat.succ_le_succ (ih true)
      · exact Nat.succ_le_succ (ih false)

theorem forall_split_cons {p : Text → Glyph → Prop} :
    (∀ front x back, g :: t = front ++ x :: back → p front x) ↔
      p [] g ∧ ∀ front x back, t = front ++ x :: back → p (g :: front) x := by
  constructor
  · intro all
    exact ⟨all [] g t rfl, fun front x back whole => all (g :: front) x back (by rw [whole]; rfl)⟩
  · rintro ⟨here, later⟩ front x back whole
    cases front with
    | nil =>
        cases whole
        exact here
    | cons first front =>
        obtain ⟨rfl, rest⟩ := List.cons.inj whole
        exact later front x back rest

/-- Collapsing leaves a text if its blanks are spaces, none of them behind another blank. -/
theorem collapse_eq_self_iff : collapse b t = t ↔
    ∀ front g back, t = front ++ g :: back → g.isBlank = true →
      g = .char ' ' ∧ endsBlank b front = false := by
  induction t generalizing b with
  | nil => simp [collapse]
  | cons g t ih =>
      have behind : ∀ front, endsBlank b (g :: front) = endsBlank g.isBlank front := fun _ => rfl
      rw [forall_split_cons]
      simp only [behind]
      rw [← ih]
      cases blank : g.isBlank with
      | false => simp [collapse_cons blank]
      | true =>
          rw [collapse_blank blank]
          cases b with
          | false => simp [endsBlank, eq_comm]
          | true =>
              have shorter := length_collapse_le true t
              constructor
              · intro same
                have length := congrArg List.length same
                rw [if_pos rfl, List.length_cons] at length
                omega
              · rintro ⟨spaced, _⟩
                cases (spaced rfl).2

theorem endsBlank_eq_false_iff :
    endsBlank true t = false ↔ ∃ previous ∈ t.getLast?, previous.isBlank = false := by
  rcases List.eq_nil_or_concat' t with rfl | ⟨front, g, rfl⟩
  · simp [endsBlank]
  · simp [endsBlank]

theorem squeeze_eq_self_iff : squeeze t = t ↔ Spaced t := by
  constructor
  · intro same
    have length := congrArg List.length same
    have shorter := length_collapse_le true (trimRight t)
    obtain ⟨blanks, whole, _⟩ := trimRight_append_blanks t
    have lengths := congrArg List.length whole
    rw [squeeze_trimRight, squeeze_eq_collapse (trimRight_last t)] at length
    rw [List.length_append] at lengths
    have empty : blanks = [] := List.eq_nil_of_length_eq_zero (by omega)
    rw [empty, List.append_nil] at whole
    have last : ∀ g ∈ t.getLast?, g.isBlank = false := whole ▸ trimRight_last t
    rw [squeeze_eq_collapse last] at same
    refine ⟨last, fun front g back parts blank => ?_⟩
    rw [← endsBlank_eq_false_iff]
    exact collapse_eq_self_iff.1 same front g back parts blank
  · intro spaced
    rw [squeeze_eq_collapse spaced.last]
    refine collapse_eq_self_iff.2 fun front g back parts blank => ?_
    rw [endsBlank_eq_false_iff]
    exact spaced.single front g back parts blank

end Text

end FormatLint
