import FormatLint.Order
import Mathlib

/-!
Sorting commutes with leaving elements out, and with replacing them by others whose keys are in the
same order.
-/

namespace FormatLint

theorem pairLE_iff {a b : Int × Int} :
    pairLE a b = true ↔ a.1 < b.1 ∨ a.1 = b.1 ∧ a.2 ≤ b.2 := by
  simp only [pairLE, Bool.or_eq_true, Bool.and_eq_true, decide_eq_true_eq, beq_iff_eq]

theorem pairLE_antisymm {a b : Int × Int} (first : pairLE a b = true) (second : pairLE b a = true) :
    a = b := by
  rw [pairLE_iff] at first second
  exact Prod.ext (by omega) (by omega)

theorem pairLE_refl (a : Int × Int) : pairLE a a = true := by simp [pairLE]

section Stable

variable {α : Type} {key : α → Int × Int}

/-- What has one key stays in its order. -/
theorem sortByPair_filter_key (key : α → Int × Int) (l : List α) (k : Int × Int) :
    (sortByPair key l).filter (key · = k) = l.filter (key · = k) := by
  have ties : (l.filter (key · = k)).Pairwise fun a b => pairLE (key a) (key b) = true := by
    refine List.pairwise_of_forall_mem_list fun a front b back => ?_
    have first : key a = k := by simpa using (List.mem_filter.1 front).2
    have second : key b = k := by simpa using (List.mem_filter.1 back).2
    rw [first, second]
    exact pairLE_refl k
  have kept : (l.filter (key · = k)).Sublist (sortByPair key l) :=
    List.sublist_mergeSort (fun a b c => pairLE_trans (a := key a) (b := key b) (c := key c))
      (fun a b => pairLE_total (key a) (key b)) ties List.filter_sublist
  have inner := kept.filter (key · = k)
  rw [List.filter_filter] at inner
  simp only [Bool.and_self] at inner
  exact (inner.eq_of_length ((sortByPair_perm key l).filter _).length_eq.symm).symm

theorem eq_of_sorted (key : α → Int × Int) {first second : List α}
    (sorted₁ : first.Pairwise fun a b => pairLE (key a) (key b) = true)
    (sorted₂ : second.Pairwise fun a b => pairLE (key a) (key b) = true)
    (ties : ∀ k, first.filter (key · = k) = second.filter (key · = k)) : first = second := by
  have mem {l l' : List α} (ties : ∀ k, l.filter (key · = k) = l'.filter (key · = k)) {x : α}
      (member : x ∈ l) : x ∈ l' := by
    have inside : x ∈ l.filter (key · = key x) := by simp [member]
    rw [ties] at inside
    exact (List.mem_filter.1 inside).1
  induction first generalizing second with
  | nil =>
      cases second with
      | nil => rfl
      | cons b second => cases mem (fun k => (ties k).symm) List.mem_cons_self
  | cons a first ih =>
      cases second with
      | nil => cases mem ties (x := a) List.mem_cons_self
      | cons b second =>
          obtain ⟨least₁, rest₁⟩ := List.pairwise_cons.1 sorted₁
          obtain ⟨least₂, rest₂⟩ := List.pairwise_cons.1 sorted₂
          have forth : pairLE (key a) (key b) = true := by
            rcases List.mem_cons.1 (mem (fun k => (ties k).symm) (x := b) List.mem_cons_self) with
              same | later
            · rw [same]
              exact pairLE_refl _
            · exact least₁ b later
          have back : pairLE (key b) (key a) = true := by
            rcases List.mem_cons.1 (mem ties (x := a) List.mem_cons_self) with same | later
            · rw [same]
              exact pairLE_refl _
            · exact least₂ a later
          have equal := pairLE_antisymm forth back
          have heads := ties (key a)
          rw [List.filter_cons_of_pos (by simp), List.filter_cons_of_pos (by simp [equal])] at heads
          obtain rfl := (List.cons.inj heads).1
          refine congrArg _ (ih rest₁ rest₂ fun k => ?_)
          have tail := ties k
          rw [List.filter_cons, List.filter_cons] at tail
          split at tail
          · exact (List.cons.inj tail).2
          · exact tail

theorem filter_sortByPair (keep : α → Bool) (l : List α) :
    (sortByPair key l).filter keep = sortByPair key (l.filter keep) := by
  refine eq_of_sorted key ((sortByPair_sorted key l).sublist List.filter_sublist)
    (sortByPair_sorted key _) fun k => ?_
  rw [sortByPair_filter_key, List.filter_filter, List.filter_filter]
  have swapped := congrArg (List.filter keep) (sortByPair_filter_key key l k)
  rw [List.filter_filter, List.filter_filter] at swapped
  simpa only [Bool.and_comm] using swapped

theorem sortByPair_sublist {l l' : List α} (sublist : l'.Sublist l) :
    (sortByPair key l').Sublist (sortByPair key l) := by
  have insert (a : α) (l : List α) : ∃ front back, sortByPair key (a :: l) = front ++ a :: back ∧
      sortByPair key l = front ++ back ∧ (∀ b ∈ front, pairLE (key a) (key b) = false) ∧
        ∀ b ∈ back, pairLE (key a) (key b) = true := by
    obtain ⟨front, back, sorted, rest, before⟩ := List.mergeSort_cons
      (fun a b c => pairLE_trans (a := key a) (b := key b) (c := key c))
      (fun a b => pairLE_total (key a) (key b)) a l
    refine ⟨front, back, sorted, rest, fun b member => by simpa using before b member, ?_⟩
    have order := sortByPair_sorted key (a :: l)
    rw [sortByPair, sorted] at order
    exact (List.pairwise_cons.1 (List.pairwise_append.1 order).2.1).1
  induction sublist with
  | slnil => exact List.Sublist.refl _
  | @cons l' l a _ ih =>
      obtain ⟨front, back, sorted, rest, _, _⟩ := insert a l
      rw [sorted]
      rw [rest] at ih
      exact ih.trans ((List.Sublist.refl front).append (List.sublist_cons_self a back))
  | @cons_cons l' l a _ ih =>
      obtain ⟨front, back, sorted, rest, before, behind⟩ := insert a l
      obtain ⟨front', back', sorted', rest', before', behind'⟩ := insert a l'
      rw [rest, rest'] at ih
      rw [sorted, sorted']
      have parts {front back : List α} (before : ∀ b ∈ front, pairLE (key a) (key b) = false)
          (behind : ∀ b ∈ back, pairLE (key a) (key b) = true) :
          (front ++ back).filter (fun b => !pairLE (key a) (key b)) = front ∧
            (front ++ back).filter (fun b => pairLE (key a) (key b)) = back := by
        rw [List.filter_append, List.filter_append, List.filter_eq_self.2 fun b member => by
            simp [before b member], List.filter_eq_nil_iff.2 fun b member => by
            simp [behind b member], List.filter_eq_nil_iff.2 fun b member => by
            simp [before b member], List.filter_eq_self.2 behind]
        exact ⟨List.append_nil _, rfl⟩
      have early := ih.filter fun b => !pairLE (key a) (key b)
      have late := ih.filter fun b => pairLE (key a) (key b)
      rw [(parts before behind).1, (parts before' behind').1] at early
      rw [(parts before behind).2, (parts before' behind').2] at late
      exact early.append (late.cons_cons a)

theorem sortByPair_append {first second : List α}
    (order : ∀ a ∈ first, ∀ b ∈ second, pairLE (key a) (key b) = true) :
    sortByPair key (first ++ second) = sortByPair key first ++ sortByPair key second := by
  have mem {l : List α} {x : α} (member : x ∈ sortByPair key l) : x ∈ l :=
    (sortByPair_perm key l).mem_iff.1 member
  refine eq_of_sorted key (sortByPair_sorted key _) (List.pairwise_append.2
    ⟨sortByPair_sorted key first, sortByPair_sorted key second,
      fun a front b back => order a (mem front) b (mem back)⟩) fun k => ?_
  rw [sortByPair_filter_key, List.filter_append, List.filter_append, sortByPair_filter_key,
    sortByPair_filter_key]

/-- If some elements come before all others, the two parts can be sorted one by one. -/
theorem sortByPair_split {l : List α} (early : α → Bool)
    (order : ∀ a ∈ l, ∀ b ∈ l, early a = true → early b = false →
      pairLE (key a) (key b) = true ∧ key a ≠ key b) :
    sortByPair key l =
      sortByPair key (l.filter early) ++ sortByPair key (l.filter fun a => !early a) := by
  rw [← sortByPair_append]
  · refine eq_of_sorted key (sortByPair_sorted key _) (sortByPair_sorted key _) fun k => ?_
    rw [sortByPair_filter_key, sortByPair_filter_key, List.filter_append]
    by_cases occurs : ∃ a ∈ l, key a = k ∧ early a = true
    · obtain ⟨a, member, tie, front⟩ := occurs
      have empty : (l.filter fun b => !early b).filter (key · = k) = [] := by
        rw [List.filter_eq_nil_iff]
        intro b inside same
        obtain ⟨listed, back⟩ := List.mem_filter.1 inside
        exact (order a member b listed front (by simpa using back)).2 (tie.trans
          (of_decide_eq_true same).symm)
      rw [empty, List.append_nil, List.filter_filter]
      refine List.filter_congr fun b listed => ?_
      by_cases same : key b = k
      · cases back : early b with
        | true => simp [same]
        | false => exact absurd (tie.trans same.symm) (order a member b listed front back).2
      · simp [same]
    · have empty : (l.filter early).filter (key · = k) = [] := by
        rw [List.filter_eq_nil_iff]
        intro b inside same
        obtain ⟨listed, front⟩ := List.mem_filter.1 inside
        exact occurs ⟨b, listed, by simpa using same, front⟩
      rw [empty, List.nil_append, List.filter_filter]
      refine List.filter_congr fun b listed => ?_
      by_cases same : key b = k
      · cases front : early b with
        | true => exact absurd ⟨b, listed, same, front⟩ occurs
        | false => simp [same]
      · simp [same]
  · intro a front b back
    obtain ⟨listed, isEarly⟩ := List.mem_filter.1 front
    obtain ⟨listed', late⟩ := List.mem_filter.1 back
    exact (order a listed b listed' isEarly (by simpa using late)).1

end Stable

/-- Lists are sorted alike if their elements belong together and their keys are in the same order. -/
theorem forall₂_sortByPair {α β : Type} {key : α → Int × Int} {key' : β → Int × Int}
    {R : α → β → Prop} {first : List α} {second : List β} (like : List.Forall₂ R first second)
    (order : ∀ a a' b b', R a a' → R b b' → pairLE (key a) (key b) = pairLE (key' a') (key' b')) :
    List.Forall₂ R (sortByPair key first) (sortByPair key' second) := by
  obtain ⟨length, paired⟩ := List.forall₂_iff_zip.1 like
  let le (x y : α × β) : Bool := pairLE (key x.1) (key y.1)
  have front : ((first.zip second).mergeSort le).map Prod.fst = sortByPair key first := by
    rw [List.map_mergeSort (s := fun a b => pairLE (key a) (key b)) fun _ _ _ _ => rfl,
      List.map_fst_zip (Nat.le_of_eq length)]
    rfl
  have back : ((first.zip second).mergeSort le).map Prod.snd = sortByPair key' second := by
    rw [List.map_mergeSort (s := fun a b => pairLE (key' a) (key' b)),
      List.map_snd_zip (Nat.le_of_eq length.symm)]
    · rfl
    · exact fun x front y back => order _ _ _ _ (paired front) (paired back)
  rw [← front, ← back, List.forall₂_map_left_iff, List.forall₂_map_right_iff, List.forall₂_same]
  exact fun x member => paired ((List.mergeSort_perm _ _).mem_iff.1 member)

/-- Elements can be replaced before or after sorting if their keys stay in the same order. -/
theorem sortByPair_map {α β : Type} {key : α → Int × Int} {key' : β → Int × Int} (f : α → β)
    {l : List α}
    (order : ∀ a ∈ l, ∀ b ∈ l, pairLE (key a) (key b) = pairLE (key' (f a)) (key' (f b))) :
    sortByPair key' (l.map f) = (sortByPair key l).map f :=
  (List.map_mergeSort (s := fun a b => pairLE (key' a) (key' b)) order).symm

end FormatLint
