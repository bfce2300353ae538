import FormatLint.Proofs.Analysis.Sorting
import FormatLint.Proofs.Edit.Splice

/-!
Edits are made all at once. `Edit.substitute` says what a text becomes glyph by glyph, without an order
in which the edits are made. `Edit.applyAll_simultaneous` says that this is the result unless two edits
are in conflict, that making the edits one at a time from the last to the first leads there too, and
that the order of the list counts among insertions at one place only.
-/

namespace FormatLint.Edit

def range (e : Edit) : Nat × Nat := (e.start, e.stop)

/-- Edits come in the order of their ranges, and those of one range in the order of the list. -/
def Precedes (edits : List Edit) (i j : Fin edits.length) : Prop :=
  edits[i].start < edits[j].start ∨ edits[i].start = edits[j].start ∧
    (edits[i].stop < edits[j].stop ∨ edits[i].stop = edits[j].stop ∧ i < j)

instance (edits : List Edit) (i j : Fin edits.length) : Decidable (Precedes edits i j) :=
  inferInstanceAs (Decidable (_ ∨ _))

/-- All edits of the list, in their order. -/
structure Arranges (edits : List Edit) (order : List (Fin edits.length)) : Prop where
  all : ∀ i, i ∈ order
  sorted : order.Pairwise (Precedes edits)

/-- The second edit comes behind the first one, but starts before that one stops. -/
def Clash (edits : List Edit) (i j : Fin edits.length) : Prop :=
  Precedes edits i j ∧ edits[j].start < edits[i].stop

section Order

variable {edits : List Edit}

theorem Precedes.asymm {i j : Fin edits.length} (order : Precedes edits i j) :
    ¬ Precedes edits j i := by
  unfold Precedes at *
  omega

theorem exists_arranges (edits : List Edit) : ∃ order, Arranges edits order := by
  let le (i j : Fin edits.length) : Bool := decide (Precedes edits i j ∨ i = j)
  have of_le {i j : Fin edits.length} : le i j = true ↔ Precedes edits i j ∨ i = j :=
    decide_eq_true_iff
  have trans : ∀ i j k, le i j = true → le j k = true → le i k = true := by
    intro i j k first second
    rcases of_le.1 first with before | rfl
    · rcases of_le.1 second with later | rfl
      · refine of_le.2 (.inl ?_)
        unfold Precedes at *
        omega
      · exact first
    · exact second
  have total : ∀ i j, (le i j || le j i) = true := by
    intro i j
    rw [Bool.or_eq_true, of_le, of_le]
    unfold Precedes
    omega
  have perm := List.mergeSort_perm (List.finRange edits.length) le
  have nodup := perm.nodup_iff.2 (List.nodup_finRange _)
  refine ⟨(List.finRange edits.length).mergeSort le, fun i => perm.mem_iff.2 (List.mem_finRange i), ?_⟩
  refine ((List.pairwise_mergeSort trans total _).and nodup).imp fun {i j} order => ?_
  exact (of_le.1 order.1).resolve_right order.2

namespace Arranges

variable {order : List (Fin edits.length)} (arranges : Arranges edits order)
include arranges

theorem nodup : order.Nodup :=
  arranges.sorted.imp fun {i j} before same => by
    subst same
    exact before.asymm before

/-- The edits in their order are those that are spliced into a text. -/
theorem map_get : order.map edits.get = sortByPair sortKey edits := by
  refine eq_of_sorted sortKey (List.pairwise_map.2 (arranges.sorted.imp fun {i j} before => ?_))
    (sortByPair_sorted sortKey edits) fun k => ?_
  · rw [pairLE_iff]
    simp only [Precedes, sortKey, List.get_eq_getElem, Fin.getElem_fin] at *
    omega
  -- Of the edits with one range, both lists have those of the given list in its order.
  let tied (i : Fin edits.length) : Bool := sortKey (edits.get i) = k
  have ties : order.filter tied = (List.finRange edits.length).filter tied := by
    have perm : order.Perm (List.finRange edits.length) :=
      (List.perm_ext_iff_of_nodup arranges.nodup (List.nodup_finRange _)).2 fun i => by
        simp [arranges.all]
    refine (perm.filter tied).eq_of_pairwise (fun i j _ _ => Fin.le_antisymm) ?_
      ((List.pairwise_lt_finRange _).imp Fin.le_of_lt |>.sublist List.filter_sublist)
    refine (arranges.sorted.sublist List.filter_sublist).imp_of_mem fun {i j} front back before => ?_
    have one : sortKey (edits.get i) = k := of_decide_eq_true (List.mem_filter.1 front).2
    have two : sortKey (edits.get j) = k := of_decide_eq_true (List.mem_filter.1 back).2
    have same := Prod.mk.inj (one.trans two.symm)
    simp only [Precedes, List.get_eq_getElem, Fin.getElem_fin] at *
    omega
  rw [sortByPair_filter_key, List.filter_map]
  conv => rhs; rw [← List.map_get_finRange edits, List.filter_map]
  exact congrArg (List.map edits.get) ties

theorem rel_of_pairwise {R : Edit → Edit → Prop} (row : (order.map edits.get).Pairwise R)
    {i j : Fin edits.length} (before : Precedes edits i j) : R edits[i] edits[j] := by
  have both := arranges.sorted.and (List.pairwise_map.1 row)
  let related (i j : Fin edits.length) : Prop :=
    (Precedes edits i j → R edits[i] edits[j]) ∧ (Precedes edits j i → R edits[j] edits[i])
  have symmetric : Std.Symm related := ⟨fun i j => And.symm⟩
  have either : order.Pairwise related :=
    both.imp fun {i j} given => ⟨fun _ => given.2, fun back => absurd back given.1.asymm⟩
  refine (either.forall (arranges.all i) (arranges.all j) ?_).1 before
  rintro rfl
  exact before.asymm before

end Arranges

end Order

section Conflicts

variable {rest made : Text} {previous : Nat × Nat} {edits edits' : List Edit} {overlap : Overlap}

theorem row_of_splice (forward : ∀ e ∈ edits, e.start ≤ e.stop)
    (revised : splice rest previous edits = .ok made) :
    (∀ e ∈ edits, previous.2 ≤ e.start) ∧
      edits.Pairwise fun first second => first.stop ≤ second.start := by
  induction edits generalizing rest previous made with
  | nil => exact ⟨by simp, .nil⟩
  | cons e later ih =>
      obtain ⟨order, forward⟩ := List.forall_mem_cons.1 forward
      rw [splice] at revised
      split at revised
      · cases revised
      · rename_i behind
        split at revised
        · rename_i tail found
          obtain ⟨next, row⟩ := ih forward found
          refine ⟨List.forall_mem_cons.2 ⟨Nat.le_of_not_lt behind, fun other member => ?_⟩,
            .cons next row⟩
          have bound := next other member
          dsimp only at bound
          omega
        · cases revised

/-- An overlap is one of two ranges, the second of which comes later. -/
theorem ranges_of_splice (failed : splice rest previous edits = .error overlap) :
    overlap.second.1 < overlap.first.2 ∧
      [overlap.first, overlap.second].Sublist (previous :: edits.map range) := by
  induction edits generalizing rest previous with
  | nil => cases failed
  | cons e later ih =>
      rw [splice] at failed
      split at failed
      · rename_i inside
        cases failed
        refine ⟨inside, ?_⟩
        exact ((List.nil_sublist (later.map range)).cons_cons (range e)).cons_cons previous
      · split at failed
        · cases failed
        · rename_i found
          cases failed
          obtain ⟨order, part⟩ := ih found
          exact ⟨order, part.cons previous⟩

/-- Whether edits overlap, and which of them, depends on nothing but their ranges. -/
theorem splice_error_congr {rest' : Text} (same : edits'.map range = edits.map range)
    (failed : splice rest previous edits = .error overlap) :
    splice rest' previous edits' = .error overlap := by
  induction edits generalizing rest rest' previous edits' with
  | nil => cases failed
  | cons e later ih =>
      obtain ⟨e', later', rfl, here, next⟩ := List.map_eq_cons_iff.1 same
      obtain ⟨start, stop⟩ := Prod.mk.inj here
      rw [splice] at failed ⊢
      rw [start, stop]
      split at failed
      · rename_i inside
        rw [if_pos inside]
        exact failed
      · rename_i behind
        rw [if_neg behind]
        split at failed
        · cases failed
        · rename_i found
          cases failed
          rw [ih next found]

end Conflicts

def make (e : Edit) (text : Text) : Text :=
  text.take e.start ++ (e.replacement ++ text.drop e.stop)

namespace Splices

variable {o : Nat} {before after : Text} {edits : List Edit}

/-- Making the edits from the last to the first leads from the old text to the new one. -/
theorem foldr_make (splices : Splices o before edits after) {front : Text}
    (length : front.length = o) : edits.foldr make (front ++ before) = front ++ after := by
  induction splices generalizing front with
  | nil => rfl
  | @keep o kept before after edits _ ih =>
      have later := @ih (front ++ kept) (by rw [List.length_append, length])
      rwa [List.append_assoc, List.append_assoc] at later
  | @replace o old new before after edits _ ih =>
      have later := @ih (front ++ old) (by rw [List.length_append, length])
      rw [List.append_assoc] at later
      have stop : o + old.length = (front ++ old).length := by rw [List.length_append, length]
      rw [List.foldr_cons, later, make]
      dsimp only
      rw [stop, List.drop_left, ← length, List.append_assoc, List.take_left]

end Splices

theorem exists_splices {edits : List Edit} {o : Nat} {before : Text}
    (inside : ∀ e ∈ edits, o ≤ e.start ∧ e.start ≤ e.stop ∧ e.stop ≤ o + before.length)
    (row : edits.Pairwise fun first second => first.stop ≤ second.start) :
    ∃ after, Splices o before edits after := by
  induction edits generalizing o before with
  | nil => exact ⟨before, .keep_all o before⟩
  | cons e later ih =>
      obtain ⟨⟨low, order, high⟩, inside⟩ := List.forall_mem_cons.1 inside
      obtain ⟨next, row⟩ := List.pairwise_cons.1 row
      have parts : before = before.take (e.start - o) ++
          ((before.drop (e.start - o)).take (e.stop - e.start) ++ before.drop (e.stop - o)) := by
        have stop : e.stop - o = (e.start - o) + (e.stop - e.start) := by omega
        rw [stop, ← List.drop_drop, List.take_append_drop, List.take_append_drop]
      have kept : o + (before.take (e.start - o)).length = e.start := by
        rw [List.length_take]
        omega
      have replaced : e.start + ((before.drop (e.start - o)).take (e.stop - e.start)).length =
          e.stop := by
        rw [List.length_take, List.length_drop]
        omega
      have length : e.stop + (before.drop (e.stop - o)).length = o + before.length := by
        rw [List.length_drop]
        omega
      obtain ⟨after, splices⟩ := @ih e.stop (before.drop (e.stop - o)) (fun other member => by
        obtain ⟨_, forward, bound⟩ := inside other member
        exact ⟨next other member, forward, length ▸ bound⟩) row
      rw [parts]
      refine ⟨before.take (e.start - o) ++ (e.replacement ++ after), .keep ?_⟩
      rw [kept]
      have whole := @Splices.replace e.start _ e.replacement _ _ _ (replaced ▸ splices)
      rwa [replaced] at whole

def isInsertionAt (o : Nat) (e : Edit) : Bool := e.start = o ∧ e.stop = o

/-- The edit replaces glyphs, the first of them at the offset. -/
def replacesFrom (o : Nat) (e : Edit) : Bool := e.start = o ∧ o < e.stop

def covers (o : Nat) (e : Edit) : Bool := e.start ≤ o ∧ o < e.stop

/-- What edits put in front of an offset: insertions come before what replaces the glyphs there. -/
def startingAt (edits : List Edit) (o : Nat) : Text :=
  (edits.filter (isInsertionAt o)).flatMap (·.replacement) ++
    (edits.filter (replacesFrom o)).flatMap (·.replacement)

/-- What edits make of a text that begins at the offset `o`: every glyph that none of them covers is
kept, with all that is put in front of it. -/
def substitute (edits : List Edit) (o : Nat) : Text → Text
  | [] => startingAt edits o
  | g :: rest =>
    startingAt edits o ++
      ((if edits.any (covers o) then [] else [g]) ++ substitute edits (o + 1) rest)

section Substitute

variable {edits edits' : List Edit} {o : Nat}

theorem startingAt_nil_of_ne (other : ∀ e ∈ edits, e.start ≠ o) : startingAt edits o = [] := by
  have insertions : edits.filter (isInsertionAt o) = [] :=
    List.filter_eq_nil_iff.2 fun e member => by simp [isInsertionAt, other e member]
  have replacements : edits.filter (replacesFrom o) = [] :=
    List.filter_eq_nil_iff.2 fun e member => by simp [replacesFrom, other e member]
  rw [startingAt, insertions, replacements]
  rfl

theorem substitute_congr (same : ∀ q, o ≤ q → startingAt edits' q = startingAt edits q ∧
    edits'.any (covers q) = edits.any (covers q)) (t : Text) :
    substitute edits' o t = substitute edits o t := by
  induction t generalizing o with
  | nil => exact (same o (Nat.le_refl o)).1
  | cons g rest ih =>
      obtain ⟨starting, covered⟩ := same o (Nat.le_refl o)
      rw [substitute, substitute, starting, covered, ih fun q later => same q (by omega)]

theorem substitute_kept {kept : Text} (behind : ∀ e ∈ edits, o + kept.length ≤ e.start) (t : Text) :
    substitute edits o (kept ++ t) = kept ++ substitute edits (o + kept.length) t := by
  induction kept generalizing o with
  | nil => rfl
  | cons g kept ih =>
      simp only [List.length_cons] at behind ⊢
      have starting : startingAt edits o = [] :=
        startingAt_nil_of_ne fun e member => by have := behind e member; omega
      have uncovered : edits.any (covers o) = false := by
        rw [List.any_eq_false]
        intro e member
        have := behind e member
        simp only [covers, decide_eq_true_eq]
        omega
      have later := @ih (o + 1) fun e member => by have := behind e member; omega
      rw [List.cons_append, substitute, starting, uncovered, later,
        show o + 1 + kept.length = o + (kept.length + 1) by omega]
      rfl

/-- Text that an edit covers, and in which no edit starts, is left out. -/
theorem substitute_covered {old : Text} (covered : ∀ q, o ≤ q → q < o + old.length →
    startingAt edits q = [] ∧ edits.any (covers q) = true) (t : Text) :
    substitute edits o (old ++ t) = substitute edits (o + old.length) t := by
  induction old generalizing o with
  | nil => rfl
  | cons g old ih =>
      simp only [List.length_cons] at covered ⊢
      obtain ⟨starting, here⟩ := covered o (Nat.le_refl o) (by omega)
      have later := @ih (o + 1) fun q low high => covered q (by omega) (by omega)
      rw [List.cons_append, substitute, starting, here, later,
        show o + 1 + old.length = o + (old.length + 1) by omega]
      rfl

/-- An insertion is put in front of what the other edits make of the text behind it. -/
theorem substitute_insertion (o : Nat) (new t : Text) :
    substitute (⟨o, o, new⟩ :: edits) o t = new ++ substitute edits o t := by
  have here : startingAt (⟨o, o, new⟩ :: edits) o = new ++ startingAt edits o := by
    simp [startingAt, isInsertionAt, replacesFrom]
  have behind (q : Nat) (later : o < q) :
      startingAt (⟨o, o, new⟩ :: edits) q = startingAt edits q := by
    simp [startingAt, isInsertionAt, replacesFrom, Nat.ne_of_lt later]
  have covered (q : Nat) : (⟨o, o, new⟩ :: edits : List Edit).any (covers q) =
      edits.any (covers q) := by
    have empty : covers q ⟨o, o, new⟩ = false := by
      simp only [covers, decide_eq_false_iff_not]
      omega
    rw [List.any_cons, empty, Bool.false_or]
  cases t with
  | nil => exact here
  | cons g rest =>
      rw [substitute, substitute, here, covered,
        substitute_congr fun q later => ⟨behind q (by omega), covered q⟩, List.append_assoc]

theorem substitute_replacement {old : Text} (nonempty : old ≠ []) (new : Text)
    (behind : ∀ e ∈ edits, o + old.length ≤ e.start) (t : Text) :
    substitute (⟨o, o + old.length, new⟩ :: edits) o (old ++ t) =
      new ++ substitute edits (o + old.length) t := by
  obtain ⟨g, more, rfl⟩ := List.exists_cons_of_ne_nil nonempty
  generalize stop : o + (g :: more).length = n at *
  rw [List.length_cons] at stop
  have here : startingAt (⟨o, n, new⟩ :: edits) o = new := by
    have others : startingAt edits o = [] :=
      startingAt_nil_of_ne fun e member => by have := behind e member; omega
    have beyond : o < n := by omega
    have replaces : replacesFrom o ⟨o, n, new⟩ = true := decide_eq_true ⟨rfl, beyond⟩
    have noInsertion : isInsertionAt o ⟨o, n, new⟩ = false :=
      decide_eq_false fun inserted => Nat.ne_of_gt beyond inserted.2
    obtain ⟨insertions, replacements⟩ := List.append_eq_nil_iff.1 others
    rw [startingAt, List.filter_cons_of_neg (by simp [noInsertion]),
      List.filter_cons_of_pos replaces, List.flatMap_cons, insertions, replacements]
    simp
  have covered (q : Nat) (low : o ≤ q) (high : q < n) :
      (⟨o, n, new⟩ :: edits : List Edit).any (covers q) = true := by
    rw [List.any_cons, Bool.or_eq_true]
    exact .inl (decide_eq_true ⟨low, high⟩)
  have inside (q : Nat) (low : o < q) (high : q < n) : startingAt (⟨o, n, new⟩ :: edits) q = [] :=
    startingAt_nil_of_ne (List.forall_mem_cons.2 ⟨Nat.ne_of_lt low, fun e member => by
      have := behind e member
      omega⟩)
  have later (q : Nat) (low : n ≤ q) :
      startingAt (⟨o, n, new⟩ :: edits) q = startingAt edits q ∧
        (⟨o, n, new⟩ :: edits : List Edit).any (covers q) = edits.any (covers q) := by
    have starts : o ≠ q := by omega
    have uncovered : covers q ⟨o, n, new⟩ = false := by
      simp only [covers, decide_eq_false_iff_not]
      omega
    refine ⟨by simp [startingAt, isInsertionAt, replacesFrom, starts], ?_⟩
    rw [List.any_cons, uncovered, Bool.false_or]
  have rest := @substitute_covered (⟨o, n, new⟩ :: edits) (o + 1) more
    (fun q low high => ⟨inside q (by omega) (by omega), covered q (by omega) (by omega)⟩) t
  have behind : substitute (⟨o, n, new⟩ :: edits) (o + 1 + more.length) t =
      substitute edits (o + 1 + more.length) t :=
    substitute_congr (fun q low => later q (by omega)) t
  rw [List.cons_append, substitute, here, covered o (Nat.le_refl o) (by omega), rest, behind,
    show o + 1 + more.length = n by omega]
  rfl

/-- The new text that edits lead to is what they make all at once. -/
theorem Splices.eq_substitute {before after : Text} (splices : Splices o before edits after) :
    after = substitute edits o before := by
  induction splices with
  | nil => rfl
  | @keep o kept before after edits later ih =>
      rw [substitute_kept later.sorted.1, ← ih]
  | @replace o old new before after edits later ih =>
      by_cases empty : old = []
      · subst empty
        rw [List.nil_append, List.length_nil, Nat.add_zero, substitute_insertion, ih]
        rfl
      · rw [substitute_replacement empty new later.sorted.1, ← ih]

end Substitute

section Lists

variable {text made : Text} {edits edits' : List Edit} {overlap : Overlap}

theorem eq_of_perm_short {short other : List Edit} (perm : other.Perm short)
    (length : short.length ≤ 1) : other = short := by
  match short with
  | [] => exact perm.eq_nil
  | [e] => exact List.perm_singleton.1 perm
  | _ :: _ :: _ =>
      simp only [List.length_cons] at length
      omega

theorem sortKey_eq_iff {e : Edit} {start stop : Nat} :
    sortKey e = ((start : Int), (stop : Int)) ↔ e.start = start ∧ e.stop = stop := by
  simp [sortKey]

/-- An overlap is that of two edits which clash. -/
theorem exists_clash (failed : applyAll text edits = .error overlap) :
    ∃ i j, Clash edits i j ∧ overlap = ⟨edits[i].range, edits[j].range⟩ := by
  obtain ⟨order, arranges⟩ := exists_arranges edits
  obtain ⟨inside, part⟩ := ranges_of_splice failed
  rw [← arranges.map_get, List.map_map] at part
  -- Nothing starts before the place that splicing begins with.
  generalize ranges : order.map (range ∘ edits.get) = later at part
  rcases List.sublist_cons_iff.1 part with part | ⟨rest, whole, _⟩
  · subst ranges
    obtain ⟨pair, among, ranges⟩ := List.sublist_map_iff.1 part
    obtain ⟨i, rest, rfl, first, ranges⟩ := List.map_eq_cons_iff.1 ranges.symm
    obtain ⟨j, rest, rfl, second, ranges⟩ := List.map_eq_cons_iff.1 ranges
    have before : Precedes edits i j :=
      List.rel_of_pairwise_cons (arranges.sorted.sublist among) List.mem_cons_self
    refine ⟨i, j, ⟨before, ?_⟩, ?_⟩
    · rw [← first, ← second] at inside
      exact inside
    · obtain ⟨one, two⟩ := overlap
      exact congrArg₂ Overlap.mk first.symm second.symm
  · rw [(List.cons.inj whole).1] at inside
    exact absurd inside (Nat.not_lt_zero _)

section Forward

variable (forward : ∀ e ∈ edits, e.start ≤ e.stop)
include forward

/-- Where edits were made, they follow one another. -/
theorem row_of_applyAll (revised : applyAll text edits = .ok made) :
    (sortByPair sortKey edits).Pairwise fun first second => first.stop ≤ second.start :=
  (row_of_splice (fun e member => forward e (mem_sortByPair.1 member)) revised).2

/-- So none of them clash. -/
theorem not_clash (revised : applyAll text edits = .ok made) (i j : Fin edits.length) :
    ¬ Clash edits i j := by
  rintro ⟨before, inside⟩
  obtain ⟨order, arranges⟩ := exists_arranges edits
  have row := row_of_applyAll forward revised
  rw [← arranges.map_get] at row
  exact Nat.not_lt_of_le (arranges.rel_of_pairwise row before) inside

theorem applyAll_error_iff :
    (∃ overlap, applyAll text edits = .error overlap) ↔ ∃ i j, Clash edits i j := by
  constructor
  · rintro ⟨overlap, failed⟩
    obtain ⟨i, j, clash, _⟩ := exists_clash failed
    exact ⟨i, j, clash⟩
  · rintro ⟨i, j, clash⟩
    cases result : applyAll text edits with
    | error overlap => exact ⟨overlap, rfl⟩
    | ok made => exact absurd clash (not_clash forward result i j)

end Forward

section Row

variable (row : (sortByPair sortKey edits).Pairwise fun first second => first.stop ≤ second.start)
include row

/-- Of edits that follow one another at most one replaces the glyph at an offset. -/
theorem replacesFrom_short (o : Nat) : (edits.filter (replacesFrom o)).length ≤ 1 := by
  have same := ((sortByPair_perm sortKey edits).filter (replacesFrom o)).length_eq
  rw [← same]
  have alone : ((sortByPair sortKey edits).filter (replacesFrom o)).Pairwise fun _ _ => False := by
    refine (row.sublist List.filter_sublist).imp_of_mem fun {d e} front back follows => ?_
    have first := of_decide_eq_true (List.mem_filter.1 front).2
    have second := of_decide_eq_true (List.mem_filter.1 back).2
    omega
  match whole : (sortByPair sortKey edits).filter (replacesFrom o) with
  | [] => simp
  | [e] => simp
  | d :: e :: later =>
      rw [whole] at alone
      exact (List.rel_of_pairwise_cons alone List.mem_cons_self).elim

theorem substitute_sorted (t : Text) :
    substitute (sortByPair sortKey edits) 0 t = substitute edits 0 t := by
  have perm := sortByPair_perm sortKey edits
  refine substitute_congr (fun o _ => ⟨?_, perm.any_eq⟩) t
  have insertions : (sortByPair sortKey edits).filter (isInsertionAt o) =
      edits.filter (isInsertionAt o) := by
    have tied (e : Edit) : isInsertionAt o e = decide (sortKey e = ((o : Int), (o : Int))) :=
      decide_eq_decide.2 sortKey_eq_iff.symm
    rw [List.filter_congr fun e _ => tied e, List.filter_congr fun e _ => tied e]
    exact sortByPair_filter_key sortKey edits (o, o)
  have replacements : (sortByPair sortKey edits).filter (replacesFrom o) =
      edits.filter (replacesFrom o) :=
    eq_of_perm_short (perm.filter _) (replacesFrom_short row o)
  rw [startingAt, startingAt, insertions, replacements]

/-- Edits that follow one another come in one order only, but for insertions at one place. -/
theorem sortByPair_reordered (perm : edits'.Perm edits) (forward : ∀ e ∈ edits, e.start ≤ e.stop)
    (insertions : ∀ o, edits'.filter (isInsertionAt o) = edits.filter (isInsertionAt o)) :
    sortByPair sortKey edits' = sortByPair sortKey edits := by
  refine eq_of_sorted sortKey (sortByPair_sorted sortKey _) (sortByPair_sorted sortKey _) fun k => ?_
  rw [sortByPair_filter_key, sortByPair_filter_key]
  have ties := perm.filter (sortKey · = k)
  by_cases isEmpty : edits.filter (sortKey · = k) = []
  · rw [isEmpty] at ties ⊢
    exact ties.eq_nil
  · obtain ⟨e, member⟩ := List.exists_mem_of_ne_nil _ isEmpty
    obtain ⟨listed, key⟩ := List.mem_filter.1 member
    obtain rfl := of_decide_eq_true key
    rcases Nat.eq_or_lt_of_le (forward e listed) with empty | wide
    · have tied (d : Edit) : decide (sortKey d = sortKey e) = isInsertionAt e.start d := by
        refine decide_eq_decide.2 (sortKey_eq_iff.trans ?_)
        rw [← empty]
      rw [List.filter_congr fun d _ => tied d, List.filter_congr fun d _ => tied d]
      exact insertions e.start
    · have part : (edits.filter (sortKey · = sortKey e)).Sublist
          (edits.filter (replacesFrom e.start)) := by
        refine List.monotone_filter_right edits fun d same => ?_
        obtain ⟨start, stop⟩ := sortKey_eq_iff.1 (of_decide_eq_true same)
        exact decide_eq_true ⟨start, stop ▸ wide⟩
      exact eq_of_perm_short ties (part.length_le.trans (replacesFrom_short row _))

end Row

/-- A list of edits in another order makes the same, or overlaps in the same place, as long as
insertions at one place stay in their order. -/
theorem applyAll_reordered (forward : ∀ e ∈ edits, e.start ≤ e.stop) (perm : edits'.Perm edits)
    (insertions : ∀ o, edits'.filter (isInsertionAt o) = edits.filter (isInsertionAt o)) :
    applyAll text edits' = applyAll text edits := by
  cases result : applyAll text edits with
  | ok made =>
      have row := row_of_applyAll forward result
      rw [← result, applyAll, applyAll, sortByPair_reordered row perm forward insertions]
  | error overlap =>
      -- Edits of one range may change places, but the ranges are the same.
      refine splice_error_congr ?_ result
      have keys : (sortByPair sortKey edits').map sortKey = (sortByPair sortKey edits).map sortKey := by
        refine List.Perm.eq_of_pairwise (fun _ _ _ _ => pairLE_antisymm)
          (List.pairwise_map.2 (sortByPair_sorted sortKey edits'))
          (List.pairwise_map.2 (sortByPair_sorted sortKey edits)) (List.Perm.map sortKey ?_)
        exact (sortByPair_perm sortKey edits').trans (perm.trans (sortByPair_perm sortKey edits).symm)
      have ranges := congrArg (List.map fun key : Int × Int => (key.1.toNat, key.2.toNat)) keys
      rwa [List.map_map, List.map_map] at ranges

/-- The edits of a text overlap if two of them clash. Otherwise what they make is known in two ways:
by making them one at a time from the last to the first, and from every glyph of the text. In either
case the order of the list counts among insertions at one place only. -/
theorem applyAll_simultaneous
    (inside : ∀ e ∈ edits, e.start ≤ e.stop ∧ e.stop ≤ text.length) :
    ((∃ overlap, applyAll text edits = .error overlap) ↔ ∃ i j, Clash edits i j) ∧
      (∀ overlap, applyAll text edits = .error overlap →
        ∃ i j, Clash edits i j ∧ overlap = ⟨edits[i].range, edits[j].range⟩) ∧
      ((¬ ∃ i j, Clash edits i j) → ∃ order, Arranges edits order ∧
        applyAll text edits = .ok ((order.map edits.get).foldr make text) ∧
        applyAll text edits = .ok (substitute edits 0 text)) ∧
      ∀ edits', edits'.Perm edits →
        (∀ o, edits'.filter (isInsertionAt o) = edits.filter (isInsertionAt o)) →
          applyAll text edits' = applyAll text edits := by
  have forward : ∀ e ∈ edits, e.start ≤ e.stop := fun e member => (inside e member).1
  refine ⟨applyAll_error_iff forward, fun overlap => exists_clash, fun peaceful => ?_,
    fun edits' perm insertions => applyAll_reordered forward perm insertions⟩
  obtain ⟨order, arranges⟩ := exists_arranges edits
  cases result : applyAll text edits with
  | error overlap => exact absurd ((applyAll_error_iff forward).1 ⟨overlap, result⟩) peaceful
  | ok made =>
      have row := row_of_applyAll forward result
      obtain ⟨after, splices⟩ := @exists_splices (sortByPair sortKey edits) 0 text (fun e member => by
        obtain ⟨order, bound⟩ := inside e (mem_sortByPair.1 member)
        exact ⟨Nat.zero_le _, order, (Nat.zero_add text.length).symm ▸ bound⟩) row
      have spliced : splice text (0, 0) (sortByPair sortKey edits) = .ok after :=
        splices.splice_eq [] (0, 0) rfl
      have same : made = after := Except.ok.inj (result.symm.trans spliced)
      have stepwise : (sortByPair sortKey edits).foldr make ([] ++ text) = [] ++ after :=
        splices.foldr_make rfl
      rw [List.nil_append, List.nil_append] at stepwise
      have atOnce := splices.eq_substitute
      rw [substitute_sorted row] at atOnce
      refine ⟨order, arranges, ?_, ?_⟩
      · rw [arranges.map_get, stepwise, same]
      · rw [← atOnce, same]

/-- Two insertions where a replacement starts and one where it ends, out of order. -/
def crowded : List Edit :=
  [⟨1, 3, "X"⟩, ⟨1, 1, "p"⟩, ⟨5, 6, []⟩, ⟨3, 3, "q"⟩, ⟨1, 1, "r"⟩]

theorem applyAll_simultaneous_crowded :
    (∀ e ∈ crowded, e.start ≤ e.stop ∧ e.stop ≤ (Text.ofString "abcdef").length) ∧
      (¬ ∃ i j, Clash crowded i j) ∧ substitute crowded 0 "abcdef" = Text.ofString "aprXqde" ∧
      applyAll "abcdef" crowded = .ok (Text.ofString "aprXqde") := by
  have inside : ∀ e ∈ crowded, e.start ≤ e.stop ∧ e.stop ≤ (Text.ofString "abcdef").length := by
    decide
  have peaceful : ¬ ∃ i j, Clash crowded i j := by
    unfold Clash
    decide
  have made : substitute crowded 0 "abcdef" = Text.ofString "aprXqde" := by decide
  obtain ⟨_, _, revised, _⟩ := applyAll_simultaneous inside
  obtain ⟨_, _, _, atOnce⟩ := revised peaceful
  rw [made] at atOnce
  exact ⟨inside, peaceful, made, atOnce⟩

end Lists

end FormatLint.Edit
