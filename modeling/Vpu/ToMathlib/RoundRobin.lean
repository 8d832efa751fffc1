import Mathlib.Data.Int.CardIntervalMod
import Mathlib.Data.List.Rotate

/-! # Going round a table

`after n i` is the entry behind `i` in a table of `n` entries, and `around n s` are all entries in the order
of a round that begins with `s`. `behind n s d` is what remains of the round when `d` entries
behind `s` have been seen. Any `n` successive entries of an endless round are each entry once, and the
first ones, `turns n k`, have each entry as often as any other, or once more.
-/

namespace RoundRobin

def after (n i : ℕ) : ℕ := if n ≤ i + 1 then 0 else i + 1

def around (n s : ℕ) : List ℕ := (List.range n).map fun i => (s + i) % n

/-- The first `k` entries of an endless round. -/
def turns (n k : ℕ) : List ℕ := (List.range k).map (· % n)

def behind (n s d : ℕ) : List ℕ := (List.range' (d + 1) (n - (d + 1))).map fun i => (s + i) % n

variable {n s d : ℕ}

theorem after_mod (some : 0 < n) (i : ℕ) : after n (i % n) = (i + 1) % n := by
  have lt := Nat.mod_lt i some
  rw [after, ← Nat.mod_add_mod]
  split_ifs with last
  · rw [show i % n + 1 = n by omega, Nat.mod_self]
  · exact (Nat.mod_eq_of_lt (show i % n + 1 < n by omega)).symm

theorem around_cons (start : s < n) : around n s = s :: behind n s 0 := by
  obtain ⟨m, rfl⟩ : ∃ m, n = m + 1 := ⟨n - 1, by omega⟩
  rw [around, behind, List.range_eq_range', List.range'_succ, List.map_cons, Nat.add_zero,
    Nat.mod_eq_of_lt start]
  rfl

theorem behind_cons (more : d + 1 < n) : behind n s d = (s + (d + 1)) % n :: behind n s (d + 1) := by
  obtain ⟨m, rest⟩ : ∃ m, n - (d + 1) = m + 1 := ⟨n - (d + 1) - 1, by omega⟩
  rw [behind, rest, List.range'_succ, List.map_cons, behind, show n - (d + 1 + 1) = m by omega]

theorem behind_last : behind (d + 1) s d = [] := by
  rw [behind, Nat.sub_self]
  rfl

/-- Within a round the start does not come again. -/
theorem add_mod_ne (start : s < n) (some : 0 < d) (less : d < n) : (s + d) % n ≠ s := by
  rcases Nat.lt_or_ge (s + d) n with before | wrapped
  · rw [Nat.mod_eq_of_lt before]
    omega
  · rw [Nat.mod_eq_sub_mod wrapped, Nat.mod_eq_of_lt (by omega)]
    omega

/-- A round is each entry once. -/
theorem around_perm (n s : ℕ) : (around n s).Perm (List.range n) := by
  have rotated : around n s = (List.range n).rotate s := by
    apply List.ext_getElem
    · simp [around]
    · intro i left right
      simp [around, List.getElem_rotate, Nat.add_comm]
  rw [rotated]
  exact List.rotate_perm _ _

theorem mem_around {i : ℕ} : i ∈ around n s ↔ i < n := by
  rw [(around_perm n s).mem_iff, List.mem_range]

/-! ## Endless rounds -/

section Turns

variable {k l : ℕ}

theorem take_around (part : l ≤ n) : (around n s).take l = (List.range l).map fun i => (s + i) % n := by
  rw [around, ← List.map_take, List.take_range, Nat.min_eq_left part]

/-- One more entry of a round. -/
theorem take_around_succ (more : l < n) : (around n s).take (l + 1) = (around n s).take l ++ [(s + l) % n] := by
  rw [take_around more, take_around more.le, List.range_succ, List.map_append, List.map_singleton]

/-- The endless round goes on with a round that begins where it is. -/
theorem turns_append_take (part : l ≤ n) : turns n k ++ (around n (k % n)).take l = turns n (k + l) := by
  rw [take_around part, turns, turns, List.range_add, List.map_append, List.map_map]
  congr 1
  apply List.map_congr_left
  intro i _
  exact Nat.mod_add_mod k n i

theorem count_turns (n k i : ℕ) : (turns n k).count i = k.count fun x => x % n = i := by
  rw [turns, List.count_eq_countP, List.countP_map]
  rfl

/-- Nobody is two turns ahead. -/
theorem count_turns_le {i j : ℕ} (left : i < n) (right : j < n) : (turns n k).count i ≤ (turns n k).count j + 1 := by
  have some : 0 < n := Nat.zero_lt_of_lt left
  have counted : ∀ i, i < n → (turns n k).count i = k / n + if i < k % n then 1 else 0 := by
    intro i entry
    have here := Nat.count_modEq_card k some i
    simp only [Nat.ModEq, Nat.mod_eq_of_lt entry] at here
    exact (count_turns n k i).trans here
  rw [counted i left, counted j right]
  split_ifs <;> omega

end Turns

end RoundRobin
