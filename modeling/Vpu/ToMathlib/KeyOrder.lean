import Mathlib.Data.List.Sort

/-! # Lists in the order of a key

`byKey` sorts by a natural number and keeps items of one key in their order. Items whose keys rise along the list stay
in their order, whatever lies between them. `picked` reads a list at some places; at rising places it finds a part of the
list in order, and all of it that has a property when the places are those of its items.
-/

namespace KeyOrder

variable {α : Type*} (key : α → ℕ)

/-- The list in the order of a key; items of one key stay in their order. -/
def byKey (xs : List α) : List α := xs.mergeSort fun a b => decide (key a ≤ key b)

theorem byKey_perm (xs : List α) : (byKey key xs).Perm xs := List.mergeSort_perm ..

theorem byKey_pairwise (xs : List α) : (byKey key xs).Pairwise fun a b => key a ≤ key b := by
  have sorted : (byKey key xs).Pairwise fun a b => decide (key a ≤ key b) = true := List.pairwise_mergeSort
    (fun _ _ _ first second => decide_eq_true ((of_decide_eq_true first).trans (of_decide_eq_true second)))
    (fun a b => by
      rw [Bool.or_eq_true, decide_eq_true_eq, decide_eq_true_eq]
      exact Nat.le_total _ _) xs
  exact sorted.imp of_decide_eq_true

/-- Items whose keys rise already keep their order. -/
theorem filter_byKey (p : α → Bool) {xs : List α} (rising : (xs.filter p).Pairwise fun a b => key a ≤ key b) :
    (byKey key xs).filter p = xs.filter p := by
  have kept : (xs.filter p).Sublist (byKey key xs) :=
    List.sublist_mergeSort
      (fun _ _ _ first second => decide_eq_true ((of_decide_eq_true first).trans (of_decide_eq_true second)))
      (fun a b => by
        rw [Bool.or_eq_true, decide_eq_true_eq, decide_eq_true_eq]
        exact Nat.le_total _ _)
      (rising.imp decide_eq_true) List.filter_sublist
  have inside : (xs.filter p).Sublist ((byKey key xs).filter p) := by
    have filtered := kept.filter p
    rwa [List.filter_filter, List.filter_congr fun _ _ => Bool.and_self _] at filtered
  exact (inside.eq_of_length ((byKey_perm key xs).filter p).length_eq.symm).symm

/-! ## Places in a list -/

/-- The items at these places. -/
def picked (xs : List α) (ns : List ℕ) : List α := ns.filterMap fun n => xs[n]?

section Picked

variable {xs : List α} {ns : List ℕ} {p : α → Bool}

theorem picked_filter_range (xs : List α) (p : α → Bool) (k : ℕ) :
    picked xs ((List.range k).filter fun n => xs[n]?.any p) = (xs.take k).filter p := by
  induction k with
  | zero => rfl
  | succ k ih =>
    rw [picked] at ih ⊢
    rw [List.range_succ, List.filter_append, List.filterMap_append, ih, List.take_add_one, List.filter_append]
    congr 1
    cases at_k : xs[k]? with
    | none => simp only [List.filter_cons, at_k, Option.any_none, Bool.false_eq_true, if_false, List.filter_nil,
        List.filterMap_nil, Option.toList_none]
    | some x =>
      simp only [List.filter_cons, at_k, Option.any_some, List.filter_nil, Option.toList_some]
      split_ifs
      · rw [List.filterMap_cons_some at_k, List.filterMap_nil]
      · rfl

/-- At all places whose items have a property, the items that have it are found. -/
theorem picked_eq_filter (rising : ns.Pairwise (· < ·)) (exact : ∀ n, n ∈ ns ↔ ∃ x, xs[n]? = some x ∧ p x = true) :
    picked xs ns = xs.filter p := by
  have same : ns = (List.range xs.length).filter fun n => xs[n]?.any p := by
    apply rising.eq_of_mem_iff (List.pairwise_lt_range.filter _)
    intro n
    rw [exact, List.mem_filter, List.mem_range, Option.any_eq_true]
    constructor
    · rintro ⟨x, at_n, holds⟩
      exact ⟨(List.getElem?_eq_some_iff.mp at_n).1, x, at_n, holds⟩
    · rintro ⟨-, x, at_n, holds⟩
      exact ⟨x, at_n, holds⟩
  rw [same, picked_filter_range, List.take_length]

theorem picked_sublist (rising : ns.Pairwise (· < ·)) (every : ∀ n ∈ ns, ∃ x, xs[n]? = some x ∧ p x = true) :
    (picked xs ns).Sublist (xs.filter p) := by
  have places : ns.Sublist ((List.range xs.length).filter fun n => xs[n]?.any p) := by
    apply List.sublist_of_subperm_of_pairwise (r := (· ≤ ·)) _ (rising.imp Nat.le_of_lt)
      ((List.pairwise_lt_range.filter _).imp Nat.le_of_lt)
    apply List.subperm_of_subset rising.nodup
    intro n member
    obtain ⟨x, at_n, holds⟩ := every n member
    rw [List.mem_filter, List.mem_range, Option.any_eq_true]
    exact ⟨(List.getElem?_eq_some_iff.mp at_n).1, x, at_n, holds⟩
  have found := places.filterMap fun n => xs[n]?
  have whole := picked_filter_range xs p xs.length
  rw [picked, List.take_length] at whole
  rw [whole] at found
  exact found

end Picked

end KeyOrder
