import Mathlib.Algebra.BigOperators.Group.Finset.Piecewise
import Mathlib.Algebra.BigOperators.Ring.Finset
import Mathlib.Algebra.Order.BigOperators.Group.Finset

/-! # Totals over the holdings of several parties

Finitely many parties hold something, and a weight says how much each holding counts. A step changes
what one party holds, so the total moves by the difference of two weights (`total_update`). Where a
pool beside the parties loses what the party gains, pool and holdings together keep their sum
(`total_move`), and a balance between them and another sum stays (`balance_update`). `weigh` adds up
the weights of a list; a weight that is 1 or 0 counts its members.
-/

namespace Ledger

variable {ι V M : Type*} [Fintype ι]

/-- What all parties hold together. -/
def total [AddCommMonoid M] (weight : V → M) (held : ι → V) : M := ∑ i, weight (held i)

section AddCommMonoid

variable [AddCommMonoid M] {weight : V → M} {held : ι → V}

theorem total_eq_zero (held : ι → V) (none : ∀ i, weight (held i) = 0) : total weight held = 0 :=
  Finset.sum_eq_zero fun i _ => none i

theorem total_congr {weight' : V → M} (same : ∀ i, weight (held i) = weight' (held i)) :
    total weight held = total weight' held :=
  Finset.sum_congr rfl fun i _ => same i

theorem total_update [DecidableEq ι] (weight : V → M) (held : ι → V) (i : ι) (v : V) :
    total weight (Function.update held i v) + weight (held i) = total weight held + weight v := by
  have weighed : ∀ j, weight (Function.update held i v j) =
      Function.update (fun j => weight (held j)) i (weight v) j :=
    Function.apply_update (fun _ => weight) held i v
  rw [total, total, Finset.sum_congr rfl fun j _ => weighed j,
    Finset.sum_update_of_mem (Finset.mem_univ i), Finset.sdiff_singleton_eq_erase,
    ← Finset.add_sum_erase Finset.univ (fun j => weight (held j)) (Finset.mem_univ i)]
  rw [add_comm (weight v + _) _, add_right_comm, add_assoc]

end AddCommMonoid

/-- What the pool gains, the party loses. -/
theorem total_move [AddCancelCommMonoid M] [DecidableEq ι] (weight : V → M) (held : ι → V) {i : ι} {v : V}
    {pool pool' : M} (moved : pool' + weight v = pool + weight (held i)) :
    pool' + total weight (Function.update held i v) = pool + total weight held := by
  have changed := total_update weight held i v
  apply add_right_cancel (b := weight (held i))
  calc pool' + total weight (Function.update held i v) + weight (held i)
      = pool' + weight v + total weight held := by rw [add_assoc, changed, add_comm (total _ _), add_assoc]
    _ = pool + total weight held + weight (held i) := by rw [moved, add_right_comm]

/-- A balance stays where the pool, the other sum and one party change by amounts that cancel. -/
theorem balance_update [AddCancelCommMonoid M] [DecidableEq ι] {weight : V → M} {held : ι → V} {i : ι} {v : V}
    {pool pool' sum sum' : M} (balance : pool + total weight held = sum)
    (moved : pool' + sum + weight v = pool + sum' + weight (held i)) :
    pool' + total weight (Function.update held i v) = sum' := by
  have whole := total_move weight held moved
  rw [add_right_comm, add_right_comm pool, balance, add_comm sum] at whole
  exact add_right_cancel whole

/-- A weight that is 1 or 0 counts parties. -/
theorem total_boole [AddCommMonoidWithOne M] {weight : V → M} (held : ι → V) (p : ι → Prop) [DecidablePred p]
    (boole : ∀ i, weight (held i) = if p i then 1 else 0) :
    total weight held = ((Finset.univ.filter p).card : ℕ) :=
  (Finset.sum_congr rfl fun i _ => boole i).trans (Finset.sum_boole ..)

theorem weight_le_total (weight : V → ℕ) (held : ι → V) (i : ι) :
    weight (held i) ≤ total weight held :=
  Finset.single_le_sum (fun j _ => Nat.zero_le (weight (held j))) (Finset.mem_univ i)

/-- The weights of the members of a list. -/
def weigh {α : Type*} (w : α → ℕ) (xs : List α) : ℕ := (xs.map w).sum

section Weigh

variable {α β : Type*} {w : α → ℕ}

@[simp] theorem weigh_nil : weigh w [] = 0 := rfl

@[simp] theorem weigh_cons (x : α) (xs : List α) : weigh w (x :: xs) = w x + weigh w xs := rfl

@[simp] theorem weigh_append (xs ys : List α) : weigh w (xs ++ ys) = weigh w xs + weigh w ys := by
  rw [weigh, List.map_append, List.sum_append]
  rfl

theorem weigh_map (f : β → α) (xs : List β) : weigh w (xs.map f) = weigh (fun x => w (f x)) xs := by
  rw [weigh, List.map_map]
  rfl

theorem weigh_congr {w' : α → ℕ} {xs : List α} (same : ∀ x ∈ xs, w x = w' x) : weigh w xs = weigh w' xs :=
  congrArg List.sum (List.map_congr_left same)

theorem weigh_one (xs : List α) : weigh (fun _ => 1) xs = xs.length := by
  induction xs with
  | nil => rfl
  | cons x xs ih => rw [weigh_cons, ih, List.length_cons, Nat.add_comm]

theorem weigh_boole (p : α → Prop) [DecidablePred p] (xs : List α) :
    weigh (fun x => if p x then 1 else 0) xs = xs.countP (fun x => decide (p x)) := by
  induction xs with
  | nil => rfl
  | cons x xs ih =>
    rw [weigh_cons, ih, List.countP_cons, Nat.add_comm]
    simp only [decide_eq_true_eq]

theorem weigh_range (k n : ℕ) : weigh (fun i => if i = k then 1 else 0) (List.range n) = if k < n then 1 else 0 := by
  rw [weigh_boole]
  show (List.range n).count k = _
  split_ifs with inside
  · exact List.count_eq_one_of_mem List.nodup_range (List.mem_range.mpr inside)
  · exact List.count_eq_zero_of_not_mem fun member => inside (List.mem_range.mp member)

theorem le_weigh {x : α} {xs : List α} (member : x ∈ xs) : w x ≤ weigh w xs :=
  List.single_le_sum (fun _ _ => Nat.zero_le _) _ (List.mem_map_of_mem member)

end Weigh

end Ledger
