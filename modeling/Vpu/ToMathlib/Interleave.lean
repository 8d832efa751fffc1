import Vpu.ToMathlib.Blit

/-! # Interleaving two streams

`interleave xs ys` takes one item of each list in turn and stops with the shorter list. Interleaving
blocks of equal lengths one after the other interleaves what the blocks are made of. `evens` and `odds` take the two
streams apart again.
-/

namespace Interleave

open Blit

variable {α : Type*}

def interleave : List α → List α → List α
  | x :: xs, y :: ys => x :: y :: interleave xs ys
  | _, _ => []

@[simp] theorem interleave_nil_left (ys : List α) : interleave [] ys = [] := by
  cases ys <;> rfl

@[simp] theorem interleave_nil_right (xs : List α) : interleave xs [] = [] := by
  cases xs <;> rfl

@[simp] theorem interleave_cons (x y : α) (xs ys : List α) :
    interleave (x :: xs) (y :: ys) = x :: y :: interleave xs ys := rfl

@[simp] theorem interleave_length (xs ys : List α) :
    (interleave xs ys).length = 2 * min xs.length ys.length := by
  induction xs generalizing ys with
  | nil => simp
  | cons x xs ih =>
    cases ys with
    | nil => simp
    | cons y ys =>
      rw [interleave_cons, List.length_cons, List.length_cons, ih, List.length_cons, List.length_cons,
        Nat.succ_min_succ]
      rfl

theorem interleave_append {xs ys : List α} (same : xs.length = ys.length) (xs' ys' : List α) :
    interleave (xs ++ xs') (ys ++ ys') = interleave xs ys ++ interleave xs' ys' := by
  induction xs generalizing ys with
  | nil =>
    rw [List.eq_nil_of_length_eq_zero same.symm]
    rfl
  | cons x xs ih =>
    cases ys with
    | nil => contradiction
    | cons y ys =>
      simp only [List.cons_append, interleave_cons]
      rw [ih (Nat.succ.inj same)]

/-- Only as much of each list counts as the other one has. -/
theorem interleave_take_min (xs ys : List α) :
    interleave (xs.take (min xs.length ys.length)) (ys.take (min xs.length ys.length)) =
      interleave xs ys := by
  induction xs generalizing ys with
  | nil => simp
  | cons x xs ih =>
    cases ys with
    | nil => simp
    | cons y ys =>
      rw [List.length_cons, List.length_cons, Nat.succ_min_succ, List.take_succ_cons, List.take_succ_cons,
        interleave_cons, interleave_cons, ih]

/-- Every other item, from the first one on. -/
def evens : List α → List α
  | x :: _ :: rest => x :: evens rest
  | _ => []

/-- Every other item, from the second one on. -/
def odds : List α → List α
  | _ :: y :: rest => y :: odds rest
  | _ => []

/-- Two lists of one length are found again. -/
theorem evens_odds_interleave {xs ys : List α} (same : xs.length = ys.length) :
    evens (interleave xs ys) = xs ∧ odds (interleave xs ys) = ys := by
  induction xs generalizing ys with
  | nil =>
    rw [List.eq_nil_of_length_eq_zero same.symm]
    exact ⟨rfl, rfl⟩
  | cons x xs ih =>
    cases ys with
    | nil => contradiction
    | cons y ys =>
      obtain ⟨left, right⟩ := ih (Nat.succ.inj same)
      rw [interleave_cons, evens, odds, left, right]
      exact ⟨rfl, rfl⟩

/-- The indexed loop over two buffers. -/
theorem flatMap_range (f g : ℕ → α) (n : ℕ) :
    (List.range n).flatMap (fun i => [f i, g i]) = interleave (window f 0 n) (window g 0 n) := by
  induction n with
  | zero => rfl
  | succ n ih =>
    rw [List.range_succ, List.flatMap_append, ih, window_append, window_append,
      interleave_append (by simp)]
    simp [window]

end Interleave
