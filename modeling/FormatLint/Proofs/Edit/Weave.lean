import FormatLint.Proofs.Analysis.Exact
import FormatLint.Proofs.Edit.Splice

/-!
Insertions. What insertions make of a text is the text with a piece at each of its places
(`Edit.applyAll_weave`). Pieces without line feeds leave every line where it is, and are put into it:
`Text.lines_weave`.
-/

namespace FormatLint

namespace Text

/-- A text that begins at the offset `o`, with the piece of each offset in front of what stands there. -/
def weave (pieces : Nat → Text) (o : Nat) : Text → Text
  | [] => pieces o
  | g :: rest => pieces o ++ g :: weave pieces (o + 1) rest

variable {pieces other : Nat → Text} {o : Nat}

theorem weave_append {front : Text} (empty : ∀ q, o ≤ q → q < o + front.length → pieces q = [])
    (back : Text) :
    weave pieces o (front ++ back) = front ++ weave pieces (o + front.length) back := by
  induction front generalizing o with
  | nil => rfl
  | cons g rest ih =>
      have behind : weave pieces (o + 1) (rest ++ back) =
          rest ++ weave pieces (o + 1 + rest.length) back := by
        refine ih fun q low high => empty q (Nat.le_of_succ_le low) ?_
        rw [List.length_cons]
        omega
      have here : pieces o = [] := empty o (Nat.le_refl o) (by simp)
      rw [List.cons_append, weave, here, behind, List.length_cons, Nat.add_right_comm o]
      rfl

theorem weave_congr {lead : Text} (here : pieces o = lead ++ other o)
    (behind : ∀ q, o < q → pieces q = other q) (t : Text) :
    weave pieces o t = lead ++ weave other o t := by
  induction t generalizing o lead with
  | nil => exact here
  | cons g rest ih =>
      have next : weave pieces (o + 1) rest = [] ++ weave other (o + 1) rest :=
        ih (behind (o + 1) (by omega)) fun q later => behind q (by omega)
      rw [weave, weave, here, next, List.append_assoc]
      rfl

theorem weave_empty (empty : ∀ q, pieces q = []) (o : Nat) (t : Text) : weave pieces o t = t := by
  have whole : weave pieces o (t ++ []) = _ := weave_append (fun q _ _ => empty q) []
  rwa [List.append_nil, weave, empty, List.append_nil] at whole

theorem exists_weave_concat (pieces : Nat → Text) (o : Nat) (front : Text) (g : Glyph) :
    ∃ lead, weave pieces o (front ++ [g]) = lead ++ g :: pieces (o + front.length + 1) := by
  induction front generalizing o with
  | nil => exact ⟨pieces o, rfl⟩
  | cons first rest ih =>
      obtain ⟨lead, whole⟩ := ih (o + 1)
      refine ⟨pieces o ++ first :: lead, ?_⟩
      rw [List.cons_append, weave, whole, List.length_cons, Nat.add_right_comm o 1, Nat.add_assoc o]
      simp

theorem lines_append {piece : Text} (unfed : .char '\n' ∉ piece) (rest : Text) :
    (piece ++ rest).splitOnP (· = .char '\n') =
      (rest.splitOnP (· = .char '\n')).modifyHead (piece ++ ·) := by
  induction piece with
  | nil =>
      change rest.splitOnP _ = (rest.splitOnP _).modifyHead id
      rw [List.modifyHead_id, id]
  | cons g later ih =>
      rw [List.mem_cons, not_or] at unfed
      rw [List.cons_append, List.splitOnP_cons_eq_if_modifyHead, if_neg (by simpa using Ne.symm unfed.1),
        ih unfed.2, List.modifyHead_modifyHead]
      rfl

/-- Pieces without line feeds are put into the lines of a text. -/
theorem lines_weave (unfed : ∀ q, .char '\n' ∉ pieces q) (o : Nat) (t : Text) :
    (weave pieces o t).splitOnP (· = .char '\n') =
      List.zipWith (weave pieces) (o :: Source.startsBehind o t)
        (t.splitOnP (· = .char '\n')) := by
  induction t generalizing o with
  | nil =>
      have whole := lines_append (unfed o) []
      rw [List.append_nil] at whole
      rw [weave, whole]
      simp [weave]
  | cons g rest ih =>
      rw [weave, lines_append (unfed o), List.splitOnP_cons_eq_if_modifyHead,
        List.splitOnP_cons_eq_if_modifyHead, Source.startsBehind_cons, ih (o + 1)]
      by_cases feed : g = .char '\n'
      · simp only [feed, decide_true, ↓reduceIte, List.modifyHead_cons, List.zipWith_cons_cons,
          weave, List.append_nil]
      · obtain ⟨line, below, lines⟩ :=
          List.exists_cons_of_ne_nil (List.splitOnP_ne_nil (· = Glyph.char '\n') rest)
        simp only [feed, decide_false, Bool.false_eq_true, ↓reduceIte, lines, List.modifyHead_cons,
          List.zipWith_cons_cons, weave]

end Text

namespace Edit

variable {edits : List Edit} {o : Nat}

def insertedAt (edits : List Edit) (o : Nat) : Text :=
  (edits.filter (·.start = o)).flatMap (·.replacement)

theorem insertedAt_cons (e : Edit) (later : List Edit) (o : Nat) : insertedAt (e :: later) o =
    (if e.start = o then e.replacement else []) ++ insertedAt later o := by
  rw [insertedAt, List.filter_cons]
  by_cases here : e.start = o
  · simp [here, insertedAt]
  · simp [here, insertedAt]

theorem mem_insertedAt {g : Glyph} :
    g ∈ insertedAt edits o ↔ ∃ e ∈ edits, e.start = o ∧ g ∈ e.replacement := by
  simp [insertedAt, and_assoc]

theorem insertedAt_eq_nil_iff :
    insertedAt edits o = [] ↔ ∀ e ∈ edits, e.start = o → e.replacement = [] := by
  simp [insertedAt]

/-- Insertions in the order of the text make the text with what they put in front of each offset. -/
theorem splice_weave {rest text : Text} {previous : Nat × Nat}
    (insertions : ∀ e ∈ edits, e.start = e.stop)
    (ordered : edits.Pairwise fun first second => first.start ≤ second.start)
    (inside : ∀ e ∈ edits, e.stop ≤ previous.2 + rest.length)
    (made : splice rest previous edits = .ok text) :
    text = Text.weave (insertedAt edits) previous.2 rest := by
  induction edits generalizing rest text previous with
  | nil =>
      cases made
      exact (Text.weave_empty (fun _ => rfl) _ _).symm
  | cons e later ih =>
      rw [splice] at made
      split at made
      · cases made
      · rename_i inOrder
        split at made
        · rename_i tail spliced
          cases made
          obtain ⟨behind, ordered⟩ := List.pairwise_cons.1 ordered
          obtain ⟨here, insertions⟩ := List.forall_mem_cons.1 insertions
          obtain ⟨within, inside⟩ := List.forall_mem_cons.1 inside
          rw [← here] at spliced within
          generalize skipped : e.start - previous.2 = n at spliced ⊢
          have offset : previous.2 + n = e.start := by omega
          have front : (rest.take n).length = n := List.length_take_of_le (by omega)
          have remainder : tail = Text.weave (insertedAt later) e.start (rest.drop n) := by
            refine ih insertions ordered (fun other member => ?_) spliced
            have bound := inside other member
            rw [List.length_drop]
            dsimp only
            omega
          have inserted : insertedAt (e :: later) e.start =
              e.replacement ++ insertedAt later e.start := by
            rw [insertedAt_cons, if_pos rfl]
          have afterwards (q : Nat) (low : e.start < q) :
              insertedAt (e :: later) q = insertedAt later q := by
            rw [insertedAt_cons, if_neg (Nat.ne_of_lt low)]
            rfl
          -- Up to the first insertion the text is kept, and from there on the others are woven in.
          have empty (q : Nat) (high : q < e.start) : insertedAt (e :: later) q = [] := by
            refine insertedAt_eq_nil_iff.2 fun other member same => ?_
            rcases List.mem_cons.1 member with rfl | member
            · omega
            · have order := behind other member
              omega
          have whole : Text.weave (insertedAt (e :: later)) previous.2
              (rest.take n ++ rest.drop n) = _ :=
            Text.weave_append (fun q _ high => empty q (by omega)) (rest.drop n)
          rw [List.take_append_drop, front, offset, Text.weave_congr inserted afterwards] at whole
          rw [whole, remainder]
        · cases made

/-- Insertions inside a text make the text with what they put in front of each offset. -/
theorem applyAll_weave {text revised : Text} (insertions : ∀ e ∈ edits, e.start = e.stop)
    (inside : ∀ e ∈ edits, e.stop ≤ text.length) (made : applyAll text edits = .ok revised) :
    revised = Text.weave (insertedAt (sortByPair sortKey edits)) 0 text := by
  have listed (e : Edit) : e ∈ sortByPair sortKey edits ↔ e ∈ edits :=
    (sortByPair_perm sortKey edits).mem_iff
  refine splice_weave (fun e member => insertions e ((listed e).1 member))
    ((sortByPair_sorted sortKey edits).imp start_le_of_pairLE) (fun e member => ?_) made
  rw [Nat.zero_add]
  exact inside e ((listed e).1 member)

end Edit

end FormatLint
