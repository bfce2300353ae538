import FormatLint.Command.Disk

/-!
Writing on a disk changes the content of one place and no other (`Disk.find?_put`). A file is only
written where all places on the way to it are directories already, so no directory comes or goes:
`Disk.Wrote.sameTree`.
-/

namespace FormatLint.Disk

variable {d d' : Disk} {place other start : Place} {content : Bytes} {p : Path}

theorem lookup_replaced (files : List (Place × Bytes)) (place other : Place) (content : Bytes) :
    (files.map fun (file, old) => if file = place then (file, content) else (file, old)).lookup
        other = if other = place then (files.lookup other).map fun _ => content
          else files.lookup other := by
  induction files with
  | nil => simp
  | cons entry later ih =>
    obtain ⟨file, old⟩ := entry
    rw [List.map_cons]
    by_cases here : other = file
    · subst here
      by_cases target : other = place <;> simp [target]
    · have elsewhere : (other == file) = false := by simpa using here
      by_cases target : file = place
      · subst target
        simp only [if_true, List.lookup_cons, elsewhere, ih]
      · simp only [if_neg target, List.lookup_cons, elsewhere, ih]

theorem lookup_appended (files : List (Place × Bytes)) (place other : Place) (content : Bytes) :
    (files ++ [(place, content)]).lookup other =
      (files.lookup other).or (if other = place then some content else none) := by
  induction files with
  | nil =>
    by_cases here : other = place
    · simp [here]
    · have elsewhere : (other == place) = false := by simpa using here
      simp [List.lookup_cons, elsewhere, here]
  | cons entry later ih =>
    obtain ⟨file, old⟩ := entry
    rw [List.cons_append]
    cases here : other == file <;> simp [List.lookup_cons, here, ih]

/-- Writing changes the content of exactly one place. -/
theorem find?_put (d : Disk) (place other : Place) (content : Bytes) :
    (d.put place content).find? other = if other = place then some content else d.find? other := by
  unfold put
  split
  · rename_i present
    obtain ⟨old, found⟩ := Option.isSome_iff_exists.1 present
    simp only [find?] at found ⊢
    rw [lookup_replaced]
    by_cases here : other = place
    · simp [here, found]
    · simp [here]
  · rename_i absent
    have found : d.files.lookup place = none := Option.not_isSome_iff_eq_none.1 absent
    simp only [find?]
    rw [lookup_appended]
    by_cases here : other = place
    · simp [here, found]
    · simp [here]

theorem isDirectory_iff : d.isDirectory place = true ↔ place <+: d.workingDirectory ∨
    ∃ file ∈ d.files.map Prod.fst, place <+: file ∧ place ≠ file := by
  simp [isDirectory, List.isPrefixOf_iff_prefix]

theorem put_names (d : Disk) (place : Place) (content : Bytes) :
    (d.put place content).files.map Prod.fst =
      if (d.find? place).isSome then d.files.map Prod.fst else d.files.map Prod.fst ++ [place] := by
  unfold put
  split
  · rw [List.map_map]
    refine List.map_congr_left fun entry _ => ?_
    simp only [Function.comp_apply]
    split <;> rfl
  · simp

/-- Every place on the way to the given one is a directory. -/
def Reachable (d : Disk) (place : Place) : Prop :=
  ∀ above, above <+: place → above ≠ place → d.isDirectory above = true

theorem reachable_walk {parts : List Text} (reachable : d.Reachable start)
    (walked : d.walk start parts = .ok place) : d.Reachable place := by
  induction parts generalizing start with
  | nil =>
    cases walked
    exact reachable
  | cons part rest ih =>
    unfold walk at walked
    split at walked
    · rename_i directory
      refine ih ?_ walked
      intro above begins proper
      split at begins
      · rename_i up
        rw [if_pos up] at proper
        refine reachable above (begins.trans (List.dropLast_prefix start)) ?_
        rintro rfl
        exact proper (begins.eq_of_length_le (by simp))
      · rename_i down
        rw [if_neg down] at proper
        rcases List.prefix_concat_iff.1 begins with whole | inside
        · exact absurd whole proper
        · by_cases same : above = start
          · rwa [same]
          · exact reachable above inside same
    · split at walked <;> cases walked

theorem reachable_resolve (resolved : d.resolve p = .ok place) : d.Reachable place := by
  refine reachable_walk ?_ resolved
  intro above begins proper
  split at begins
  · rename_i absolute
    rw [if_pos absolute] at proper
    exact absurd (List.prefix_nil.1 begins) proper
  · rename_i relative
    exact isDirectory_iff.2 (.inl begins)

structure SameTree (d d' : Disk) : Prop where
  workingDirectory : d'.workingDirectory = d.workingDirectory
  directories : ∀ place, d'.isDirectory place = d.isDirectory place

theorem SameTree.refl (d : Disk) : SameTree d d := ⟨rfl, fun _ => rfl⟩

theorem SameTree.trans {d'' : Disk} (first : SameTree d d') (second : SameTree d' d'') :
    SameTree d d'' :=
  ⟨second.workingDirectory.trans first.workingDirectory,
    fun place => (second.directories place).trans (first.directories place)⟩

theorem walk_eq_ok_iff (same : SameTree d d') (parts : List Text) :
    d'.walk start parts = .ok place ↔ d.walk start parts = .ok place := by
  induction parts generalizing start with
  | nil => rfl
  | cons part rest ih =>
    unfold walk
    rw [same.directories]
    split
    · exact ih
    · constructor <;> intro walked <;> split at walked <;> cases walked

/-- Where paths lead depends on the directories only. -/
theorem SameTree.resolve_iff (same : SameTree d d') :
    d'.resolve p = .ok place ↔ d.resolve p = .ok place := by
  unfold resolve
  rw [same.workingDirectory]
  exact walk_eq_ok_iff same p.parts

theorem sameTree_put (reachable : d.Reachable place) (content : Bytes) :
    SameTree d (d.put place content) := by
  have working : (d.put place content).workingDirectory = d.workingDirectory := by
    unfold put
    split <;> rfl
  refine ⟨working, fun above => ?_⟩
  rw [Bool.eq_iff_iff, isDirectory_iff, working, put_names]
  split
  · exact isDirectory_iff.symm
  · constructor
    · rintro (inside | ⟨file, listed, inside⟩)
      · exact isDirectory_iff.2 (.inl inside)
      · rcases List.mem_append.1 listed with old | new
        · exact isDirectory_iff.2 (.inr ⟨file, old, inside⟩)
        · cases List.mem_singleton.1 new
          exact reachable above inside.1 inside.2
    · intro directory
      rcases isDirectory_iff.1 directory with inside | ⟨file, listed, inside⟩
      · exact .inl inside
      · exact .inr ⟨file, List.mem_append_left _ listed, inside⟩

/-- The content was put at the place that the path leads to, which is no directory. -/
structure Wrote (d : Disk) (p : Path) (place : Place) (content : Bytes) (d' : Disk) : Prop where
  resolved : d.resolve p = .ok place
  file : d.isDirectory place = false
  after : d' = d.put place content

theorem Wrote.sameTree (wrote : Wrote d p place content d') : SameTree d d' := by
  rw [wrote.after]
  exact sameTree_put (reachable_resolve wrote.resolved) content

theorem read_eq_ok_iff : d.read p = .ok content ↔
    ∃ place, d.resolve p = .ok place ∧ d.isDirectory place = false ∧
      d.find? place = some content := by
  unfold read
  cases resolved : d.resolve p with
  | error fault => simp
  | ok place =>
    cases directory : d.isDirectory place with
    | true => simp [directory]
    | false => cases found : d.find? place <;> simp [directory, found]

theorem create_eq_ok (created : d.create p content = .ok d') :
    ∃ place, Wrote d p place content d' ∧ d.find? place = none := by
  unfold create at created
  cases resolved : d.resolve p with
  | error fault => simp [resolved] at created
  | ok place =>
    simp only [resolved] at created
    split at created
    · cases created
    · rename_i vacant
      cases created
      simp only [Bool.or_eq_true, not_or, Bool.not_eq_true] at vacant
      exact ⟨place, ⟨resolved, vacant.1, rfl⟩, by simpa using vacant.2⟩

theorem overwrite_eq_ok (written : d.overwrite p content = .ok d') :
    ∃ place, Wrote d p place content d' := by
  unfold overwrite at written
  cases resolved : d.resolve p with
  | error fault => simp [resolved] at written
  | ok place =>
    simp only [resolved] at written
    split at written
    · cases written
    · rename_i file
      cases written
      exact ⟨place, resolved, by simpa using file, rfl⟩

/-- Every file is there still, with its content. -/
def Keeps (d d' : Disk) : Prop :=
  ∀ place content, d.find? place = some content → d'.find? place = some content

theorem Keeps.refl (d : Disk) : d.Keeps d := fun _ _ found => found

theorem Keeps.trans {d'' : Disk} (first : d.Keeps d') (second : d'.Keeps d'') : d.Keeps d'' :=
  fun place content found => second place content (first place content found)

theorem keeps_create (created : d.create p content = .ok d') : d.Keeps d' := by
  obtain ⟨place, wrote, absent⟩ := create_eq_ok created
  intro other old found
  rw [wrote.after, find?_put, if_neg, found]
  rintro rfl
  rw [absent] at found
  cases found

end FormatLint.Disk
