import FormatLint.Proofs.Edit.Splice
import FormatLint.Proofs.Format.Segments
import FormatLint.Proofs.Revision.Eligible

/-!
Where the edits stand that turn calls into safe ones. The edits of one call follow one another from
its name to its closing parenthesis, and leave alone all its arguments but the format; so those of a
call inside one of its arguments do not meet them.
-/

namespace FormatLint

def Edit.Avoids (e : Edit) (a : Argument) : Prop :=
  e.stop ≤ a.span.start.offset ∨ a.span.stop.offset ≤ e.start

/-- The edits follow one another between two offsets, and none of them is an insertion. -/
structure Edit.Row (start stop : Nat) (edits : List Edit) : Prop where
  ordered : edits.Pairwise fun first second => first.stop ≤ second.start
  forward : ∀ e ∈ edits, e.start < e.stop
  bounds : ∀ e ∈ edits, start ≤ e.start ∧ e.stop ≤ stop

namespace Edit.Row

variable {start mid stop : Nat} {edits : List Edit}

theorem nil (stop : Nat) : Row stop stop [] := ⟨.nil, nofun, nofun⟩

theorem cons {e : Edit} (row : Row mid stop edits) (starts : start ≤ e.start)
    (forward : e.start < e.stop) (next : e.stop ≤ mid) (last : mid ≤ stop) :
    Row start stop (e :: edits) where
  ordered := .cons (fun later member => Nat.le_trans next (row.bounds later member).1) row.ordered
  forward := List.forall_mem_cons.2 ⟨forward, row.forward⟩
  bounds := by
    refine List.forall_mem_cons.2 ⟨⟨starts, Nat.le_trans next last⟩, fun later member => ?_⟩
    have bounds := row.bounds later member
    omega

theorem avoids {a : Argument} (row : Row start stop edits) (behind : a.span.stop.offset ≤ start) :
    ∀ e ∈ edits, e.Avoids a :=
  fun e member => .inr (Nat.le_trans behind (row.bounds e member).1)

end Edit.Row

namespace Argument

theorem start_lt_stop {a : Argument} (ordered : Token.Ordered a.tokens) :
    a.span.start.offset < a.span.stop.offset := by
  have covers := span_covers ordered a.first a.first_mem
  have positive := ordered.nonempty a.first a.first_mem
  omega

end Argument

namespace Verdict

/-- The edits behind the name replace what stands between the arguments. -/
theorem chainEdits_row {stop start : Nat} {lead : Text} {tagged : List (Argument × Text × Text)}
    (nonempty : ∀ a ∈ tagged.map Prod.fst, a.span.start.offset < a.span.stop.offset)
    (apart : (tagged.map Prod.fst).Pairwise Argument.Precedes)
    (begins : ∀ a ∈ tagged.map Prod.fst, start < a.span.start.offset)
    (ends : ∀ a ∈ tagged.map Prod.fst, a.span.stop.offset < stop) (forward : start < stop) :
    Edit.Row start stop (chainEdits stop start lead tagged) ∧
      ∀ a ∈ tagged.map Prod.fst, ∀ e ∈ chainEdits stop start lead tagged, e.Avoids a := by
  induction tagged generalizing start lead with
  | nil =>
      exact ⟨(Edit.Row.nil stop).cons (Nat.le_refl _) forward (Nat.le_refl _) (Nat.le_refl _), nofun⟩
  | cons entry later ih =>
      obtain ⟨argument, tag, segment⟩ := entry
      obtain ⟨next, apart⟩ := List.pairwise_cons.1 apart
      obtain ⟨positive, nonempty⟩ := List.forall_mem_cons.1 nonempty
      obtain ⟨first, _⟩ := List.forall_mem_cons.1 begins
      obtain ⟨last, ends⟩ := List.forall_mem_cons.1 ends
      obtain ⟨row, avoids⟩ := @ih argument.span.stop.offset
        (", " ++ tag ++ " \x7d, \"" ++ segment ++ "\"") nonempty apart next ends last
      rw [chainEdits]
      refine ⟨row.cons (Nat.le_refl _) first (Nat.le_of_lt positive) (Nat.le_of_lt last), ?_⟩
      refine List.forall_mem_cons.2 ⟨?_, fun a listed => ?_⟩
      · exact List.forall_mem_cons.2 ⟨.inl (Nat.le_refl _), row.avoids (Nat.le_refl _)⟩
      · refine List.forall_mem_cons.2 ⟨.inl ?_, avoids a listed⟩
        exact Nat.le_trans (Nat.le_of_lt positive) (Nat.le_of_lt (next a listed))

end Verdict

namespace Call

variable {c : Call} {source : Source}

/-- What is known of a call whose edits are made: its arguments get one tag and one segment each. -/
theorem safeEdits?_inversion {edits : List Edit} (turned : (c.check source).safeEdits? = some edits) :
    ∃ f a, ∃ tags : List Text, (c.check source).IsEligible f ∧ c.format? = some a ∧
      FormatString.ofArgument? a = some f ∧
      tags.map some = f.demands.map (fun d => d.family?.map Family.tag) ∧
      tags.length = c.trailingArguments.length ∧
      f.segments.length = c.trailingArguments.length + 1 ∧
      edits = ⟨c.name.span.start.offset, c.name.span.stop.offset, c.printer.safeName⟩ ::
        Verdict.chainEdits c.closing.span.stop.offset a.span.start.offset
          (Text.ofNat f.segments.length ++ ", \x7b \"" ++ f.segments.headD [] ++ "\"")
          (c.trailingArguments.zip (tags.zip f.segments.tail)) := by
  unfold Verdict.safeEdits? at turned
  split at turned
  · rename_i f a tags format place tagged
    obtain ⟨f', eligible⟩ := eligible_of_tags? tagged
    obtain rfl : f = f' := by
      rw [eligible.format] at format
      exact (Option.some.inj format).symm
    obtain ⟨tags', tagged', families⟩ := tags?_of_eligible eligible
    obtain rfl : tags = tags' := by
      rw [tagged] at tagged'
      exact Option.some.inj tagged'
    obtain ⟨a', place', spelled, _⟩ := check_format format
    rw [check_call] at place turned
    obtain rfl : a = a' := by
      rw [place] at place'
      exact Option.some.inj place'
    have matched := eligible.matched
    rw [check_call] at matched
    have plain : ∀ d ∈ f.directives, d.1.isPlain = true := by
      intro d member
      obtain ⟨flags, width, precision, length, _⟩ := eligible.plain d member
      exact FormatString.isPlain_iff.2 ⟨flags, width, precision, length⟩
    have counted := congrArg List.length (FormatString.demands_of_plain plain)
    rw [List.length_map] at counted
    have lengths := congrArg List.length families
    rw [List.length_map, List.length_map] at lengths
    refine ⟨f, a, tags, eligible, place, spelled, families, ?_, ?_, ?_⟩
    · rw [lengths, matched]
    · rw [FormatString.segments_length, ← counted, matched]
    · exact (Option.some.inj turned).symm
  · cases turned

end Call

namespace Site

theorem arguments_between {s : Site} {slots : List Slot} (listed : Slot.Listed 0 slots)
    (ordered : Token.Ordered (s.written slots)) :
    ∀ a ∈ Slot.arguments slots, Token.Ordered a.tokens ∧
      s.name.span.stop.offset ≤ a.span.start.offset ∧
        a.span.stop.offset ≤ (Slot.closing s.opening slots).span.start.offset := by
  intro a member
  obtain ⟨slot, inside, tokens⟩ := Slot.mem_arguments member
  obtain ⟨inner, whole, within⟩ := listed.closing_eq s.opening
  have list := ordered.sublist (s.slots_sublist slots)
  have part : a.tokens ⊆ slot.tokens := tokens ▸ slot.trimmed_sublist.subset
  refine ⟨?_, ?_, ?_⟩
  · rw [tokens]
    exact list.sublist (slot.trimmed_infix.trans (Slot.tokens_infix inside)).sublist
  · have first := Slot.subset_written inside (part a.first_mem)
    exact List.rel_of_pairwise_cons ordered.pairwise
      (List.mem_append_right _ (List.mem_cons_of_mem _ first))
  · rw [whole] at list
    exact (List.pairwise_append.1 list.pairwise).2.2 a.last (within slot inside (part a.last_mem))
      _ (by simp)

theorem stop_lt_closing {s : Site} {slots : List Slot} (listed : Slot.Listed 0 slots)
    (ordered : Token.Ordered (s.written slots)) : ∀ a ∈ Slot.arguments slots,
      a.span.stop.offset < (Slot.closing s.opening slots).span.stop.offset := by
  intro a member
  obtain ⟨inner, whole, _⟩ := listed.closing_eq s.opening
  have closes : (Slot.closing s.opening slots).span.start.offset <
      (Slot.closing s.opening slots).span.stop.offset :=
    ordered.nonempty _ (by simp [written, whole])
  exact Nat.lt_of_le_of_lt (arguments_between listed ordered a member).2.2 closes

/-- The edits from the format on follow one another to the parenthesis that closes the call, and
replace nothing of the arguments behind the format. -/
theorem chainEdits_row {s : Site} {slots : List Slot} {a : Argument} {lead : Text}
    {tags segments : List Text} (listed : Slot.Listed 0 slots)
    (ordered : Token.Ordered (s.written slots)) (place : (s.call slots).format? = some a)
    (counted : tags.length = (s.call slots).trailingArguments.length)
    (segmented : segments.length = (s.call slots).trailingArguments.length) :
    Edit.Row a.span.start.offset (Slot.closing s.opening slots).span.stop.offset
        (Verdict.chainEdits (Slot.closing s.opening slots).span.stop.offset a.span.start.offset lead
          ((s.call slots).trailingArguments.zip (tags.zip segments))) ∧
      ∀ b ∈ (s.call slots).trailingArguments, ∀ e ∈ Verdict.chainEdits
        (Slot.closing s.opening slots).span.stop.offset a.span.start.offset lead
          ((s.call slots).trailingArguments.zip (tags.zip segments)), e.Avoids b := by
  have between := arguments_between listed ordered
  have apart := Slot.arguments_pairwise (ordered.sublist (s.slots_sublist slots))
  have parts := (s.call slots).arguments_eq
  rw [place] at parts
  change Slot.arguments slots = (s.call slots).fixedArguments ++ [a] ++
    (s.call slots).trailingArguments at parts
  generalize (s.call slots).fixedArguments = fixed at parts
  generalize (s.call slots).trailingArguments = trailing at parts counted segmented ⊢
  have positive : ∀ b ∈ Slot.arguments slots, b.span.start.offset < b.span.stop.offset :=
    fun b member => Argument.start_lt_stop (between b member).1
  have behind : ∀ b ∈ trailing, b ∈ Slot.arguments slots := fun b member => by simp [parts, member]
  have tagged : (trailing.zip (tags.zip segments)).map Prod.fst = trailing :=
    List.map_fst_zip (by simp [counted, segmented])
  have ends := stop_lt_closing listed ordered
  have format : a ∈ Slot.arguments slots := by simp [parts]
  have longer := positive a format
  rw [parts, List.pairwise_append] at apart
  have rows := @Verdict.chainEdits_row (Slot.closing s.opening slots).span.stop.offset
    a.span.start.offset lead (trailing.zip (tags.zip segments))
  rw [tagged] at rows
  refine rows (fun b member => positive b (behind b member)) apart.2.1 (fun b member => ?_)
    (fun b member => ends b (behind b member)) (Nat.lt_trans longer (ends a format))
  exact Nat.lt_of_lt_of_le longer (Nat.le_of_lt (apart.2.2 a (by simp) b member))

/-- The edits that turn a call follow one another from its name to the parenthesis that closes it,
and replace nothing of an argument that is no literal. -/
theorem safeEdits_row {source : Source} {s : Site} {slots : List Slot} {edits : List Edit}
    (listed : Slot.Listed 0 slots) (ordered : Token.Ordered (s.written slots))
    (turned : ((s.call slots).check source).safeEdits? = some edits) :
    Edit.Row s.name.span.start.offset (Slot.closing s.opening slots).span.stop.offset edits ∧
      ∀ a ∈ Slot.arguments slots, (∃ t ∈ a.code, t.kind ≠ .string) →
        ∀ e ∈ edits, e.Avoids a := by
  obtain ⟨f, a, tags, eligible, place, spelled, _, counted, segments, rfl⟩ :=
    Call.safeEdits?_inversion turned
  have between := arguments_between listed ordered
  have apart := Slot.arguments_pairwise (ordered.sublist (s.slots_sublist slots))
  have parts := (s.call slots).arguments_eq
  rw [place] at parts
  change Slot.arguments slots = (s.call slots).fixedArguments ++ [a] ++
    (s.call slots).trailingArguments at parts
  have format : a ∈ Slot.arguments slots := by simp [parts]
  have named : s.name.span.start.offset < s.name.span.stop.offset :=
    ordered.nonempty _ (by simp [written])
  obtain ⟨row, avoids⟩ := @chainEdits_row s slots a
    (Text.ofNat f.segments.length ++ ", \x7b \"" ++ f.segments.headD [] ++ "\"") tags
    f.segments.tail listed ordered place counted (by rw [List.length_tail, segments]; rfl)
  refine ⟨row.cons (Nat.le_refl _) named (between a format).2.1 ?_, fun b member other => ?_⟩
  · have longer := Argument.start_lt_stop (between a format).1
    have ends := stop_lt_closing listed ordered a format
    omega
  · refine List.forall_mem_cons.2 ⟨.inl (between b member).2.1, ?_⟩
    rw [parts, List.pairwise_append, List.pairwise_append] at apart
    rw [parts] at member
    rcases List.mem_append.1 member with member | member
    · rcases List.mem_append.1 member with member | member
      · have order := apart.1.2.2 b member a (by simp)
        exact row.avoids (Nat.le_of_lt order)
      · -- the format itself is replaced, but it is a literal
        obtain ⟨t, coded, kind⟩ := other
        rw [List.mem_singleton.1 member] at coded
        have literal := (FormatString.ofArgument?_inversion spelled).1
        exact absurd (literal t coded) kind
    · exact avoids b member

end Site

end FormatLint
