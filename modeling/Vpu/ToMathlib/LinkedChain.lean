import Mathlib.Data.List.Basic
import Mathlib.Data.List.Nodup
import Mathlib.Data.List.TakeDrop
import Mathlib.Logic.Function.Basic

/-! # Singly linked chains

A heap of nodes is its link function `next : ν → Option ν`; `none` is the null pointer. `Chain next
p xs` says that following the links from `p` visits exactly the nodes `xs` and then ends. `walk`
follows a given number of links and fails where it would have to read the link of the null
pointer. Setting the link of one node cuts the chain behind it, and appends a fresh node there.
-/

namespace LinkedChain

variable {ν : Type*} {next : ν → Option ν}

/-- The chain from a pointer visits these nodes and ends. -/
def Chain (next : ν → Option ν) : Option ν → List ν → Prop
  | p, [] => p = none
  | p, x :: xs => p = some x ∧ Chain next (next x) xs

instance decidableChain [DecidableEq ν] :
    (p : Option ν) → (xs : List ν) → Decidable (Chain next p xs)
  | p, [] => inferInstanceAs (Decidable (p = none))
  | _, x :: xs => @instDecidableAnd _ _ _ (decidableChain (next x) xs)

/-- Follow `k` links. The outer `none` is the read of a null pointer's link. -/
def walk (next : ν → Option ν) : ℕ → Option ν → Option (Option ν)
  | 0, p => some p
  | _ + 1, none => none
  | k + 1, some x => walk next k (next x)

namespace Chain

theorem head {p : Option ν} {xs : List ν} (chain : Chain next p xs) : p = xs.head? := by
  cases xs with
  | nil => exact chain
  | cons x xs => exact chain.1

/-- A pointer starts at most one chain. -/
theorem unique {p : Option ν} {xs ys : List ν} (left : Chain next p xs) (right : Chain next p ys) :
    xs = ys := by
  induction xs generalizing p ys with
  | nil =>
    cases ys with
    | nil => rfl
    | cons y ys => exact absurd (Eq.trans (Eq.symm left) right.1) (by simp)
  | cons x xs ih =>
    cases ys with
    | nil => exact absurd (Eq.trans (Eq.symm right) left.1) (by simp)
    | cons y ys =>
      obtain rfl : x = y := Option.some.inj (left.1.symm.trans right.1)
      rw [ih left.2 right.2]

/-- A walk that stays inside the chain ends at the node with that index, or just behind it. -/
theorem walk_eq {p : Option ν} {xs : List ν} (chain : Chain next p xs) {k : ℕ}
    (inside : k ≤ xs.length) : walk next k p = some xs[k]? := by
  induction xs generalizing p k with
  | nil =>
    obtain rfl : k = 0 := Nat.le_zero.mp inside
    exact congrArg some chain
  | cons x xs ih =>
    obtain ⟨rfl, tail⟩ := chain
    cases k with
    | zero => rfl
    | succ k => exact ih tail (Nat.le_of_succ_le_succ inside)

variable [DecidableEq ν]

/-- Links of nodes outside the chain do not matter to it. -/
theorem update {p : Option ν} {xs : List ν} (chain : Chain next p xs) {n : ν} (outside : n ∉ xs)
    (q : Option ν) : Chain (Function.update next n q) p xs := by
  induction xs generalizing p with
  | nil => exact chain
  | cons x xs ih =>
    obtain ⟨other, rest⟩ := List.ne_and_not_mem_of_not_mem_cons outside
    refine ⟨chain.1, ?_⟩
    rw [Function.update_of_ne (Ne.symm other)]
    exact ih chain.2 rest

/-- Linking a fresh node behind the node with index `k` keeps the chain up to that node, and
appends the fresh one. Whatever followed is cut off. -/
theorem link {p : Option ν} {xs : List ν} (chain : Chain next p xs) (distinct : xs.Nodup) {n : ν}
    (fresh : n ∉ xs) (ending : next n = none) {k : ℕ} (inside : k < xs.length) :
    Chain (Function.update next xs[k] (some n)) p (xs.take (k + 1) ++ [n]) := by
  induction xs generalizing p k with
  | nil => exact absurd inside (Nat.not_lt_zero _)
  | cons x xs ih =>
    obtain ⟨other, freshTail⟩ := List.ne_and_not_mem_of_not_mem_cons fresh
    obtain ⟨apart, distinctTail⟩ := List.nodup_cons.mp distinct
    cases k with
    | zero =>
      refine ⟨chain.1, ?_, ?_⟩
      · exact Function.update_self ..
      · exact (Function.update_of_ne other _ _).trans ending
    | succ k =>
      have bound : k < xs.length := Nat.lt_of_succ_lt_succ inside
      refine ⟨chain.1, ?_⟩
      have other : x ≠ xs[k] := by
        rintro rfl
        exact apart (List.getElem_mem bound)
      have kept : Function.update next xs[k] (some n) x = next x :=
        Function.update_of_ne other _ _
      simp only [List.getElem_cons_succ, kept]
      exact ih chain.2 distinctTail freshTail bound

end Chain

end LinkedChain
