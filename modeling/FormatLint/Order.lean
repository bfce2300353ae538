/-!
Stable sorting by a pair of numbers in dictionary order.
-/

namespace FormatLint

/-- Pairs in dictionary order. -/
def pairLE (a b : Int × Int) : Bool := a.1 < b.1 || (a.1 == b.1 && a.2 ≤ b.2)

/-- The list in the order of its keys; what has equal keys stays in its order. -/
def sortByPair {α : Type} (key : α → Int × Int) (l : List α) : List α :=
  l.mergeSort fun a b => pairLE (key a) (key b)

theorem pairLE_trans {a b c : Int × Int} (first : pairLE a b = true) (second : pairLE b c = true) :
    pairLE a c = true := by
  simp only [pairLE, Bool.or_eq_true, Bool.and_eq_true, decide_eq_true_eq, beq_iff_eq] at *
  omega

theorem pairLE_total (a b : Int × Int) : (pairLE a b || pairLE b a) = true := by
  simp only [pairLE, Bool.or_eq_true, Bool.and_eq_true, decide_eq_true_eq, beq_iff_eq]
  omega

theorem sortByPair_perm {α : Type} (key : α → Int × Int) (l : List α) :
    (sortByPair key l).Perm l := List.mergeSort_perm _ _

theorem mem_sortByPair {α : Type} {key : α → Int × Int} {l : List α} {x : α} :
    x ∈ sortByPair key l ↔ x ∈ l := (sortByPair_perm key l).mem_iff

theorem sortByPair_sorted {α : Type} (key : α → Int × Int) (l : List α) :
    (sortByPair key l).Pairwise fun a b => pairLE (key a) (key b) = true :=
  List.pairwise_mergeSort (fun a b c => pairLE_trans (a := key a) (b := key b) (c := key c))
    (fun a b => pairLE_total (key a) (key b)) l

end FormatLint
