import Mathlib.Data.List.Basic
import Mathlib.Data.List.TakeDrop

/-! # Cutting a stream into frames of one size

`frames n xs` are the complete frames of `n` items from the first item on and `rest n xs` is what
is left behind the last complete frame. Both only look at the unfinished frame when a stream grows,
so a reader that keeps nothing but that frame produces the frames of the whole stream under every
segmentation.
-/

namespace Frames

variable {α : Type*} {n : ℕ}

/-- The complete frames of a stream. -/
def frames (n : ℕ) (xs : List α) : List (List α) :=
  (List.range (xs.length / n)).map (fun k => (xs.drop (n * k)).take n)

/-- The items behind the last complete frame. -/
def rest (n : ℕ) (xs : List α) : List α := xs.drop (n * (xs.length / n))

theorem rest_length (n : ℕ) (xs : List α) : (rest n xs).length = xs.length % n := by
  have split := Nat.div_add_mod xs.length n
  rw [rest, List.length_drop]
  omega

theorem rest_length_lt (pos : 0 < n) (xs : List α) : (rest n xs).length < n := by
  rw [rest_length]
  exact Nat.mod_lt _ pos

theorem rest_eq_nil_iff (xs : List α) : rest n xs = [] ↔ n ∣ xs.length := by
  rw [← List.length_eq_zero_iff, rest_length, Nat.dvd_iff_mod_eq_zero]

theorem frames_of_lt {xs : List α} (lt : xs.length < n) : frames n xs = [] := by
  rw [frames, Nat.div_eq_of_lt lt]
  rfl

theorem rest_of_lt {xs : List α} (lt : xs.length < n) : rest n xs = xs := by
  rw [rest, Nat.div_eq_of_lt lt, Nat.mul_zero, List.drop_zero]

theorem frames_of_length {xs : List α} (pos : 0 < n) (one : xs.length = n) : frames n xs = [xs] := by
  rw [frames, one, Nat.div_self pos]
  change [(xs.drop (n * 0)).take n] = [xs]
  rw [Nat.mul_zero, List.drop_zero, ← one, List.take_length]

/-- Whole frames in front are cut off first. -/
theorem frames_append_of_dvd (pos : 0 < n) {xs : List α} (whole : n ∣ xs.length) (ys : List α) :
    frames n (xs ++ ys) = frames n xs ++ frames n ys := by
  obtain ⟨m, length⟩ := whole
  have count : (xs ++ ys).length / n = m + ys.length / n := by
    rw [List.length_append, length, Nat.mul_add_div pos]
  have front : xs.length / n = m := by rw [length, Nat.mul_div_cancel_left _ pos]
  rw [frames, frames, frames, count, front, List.range_add, List.map_append, List.map_map]
  congr 1
  · apply List.map_congr_left
    intro k member
    have lt := List.mem_range.mp member
    have inside : n * k + n ≤ xs.length := by
      rw [length, ← Nat.mul_succ]
      exact Nat.mul_le_mul_left n lt
    rw [List.drop_append_of_le_length (by omega),
      List.take_append_of_le_length (by rw [List.length_drop]; omega)]
  · apply List.map_congr_left
    intro k _
    have start : n * (m + k) = xs.length + n * k := by rw [length, Nat.mul_add]
    rw [Function.comp_apply, start, List.drop_append, List.drop_eq_nil_of_le (by omega),
      List.nil_append, Nat.add_sub_cancel_left]

theorem rest_append_of_dvd (pos : 0 < n) {xs : List α} (whole : n ∣ xs.length) (ys : List α) :
    rest n (xs ++ ys) = rest n ys := by
  obtain ⟨m, length⟩ := whole
  have count : n * ((xs ++ ys).length / n) = xs.length + n * (ys.length / n) := by
    rw [List.length_append, length, Nat.mul_add_div pos, Nat.mul_add]
  rw [rest, rest, count, List.drop_append, List.drop_eq_nil_of_le (by omega), List.nil_append,
    Nat.add_sub_cancel_left]

/-- The part of a stream that its complete frames cover. -/
theorem exists_whole (n : ℕ) (xs : List α) :
    ∃ whole, xs = whole ++ rest n xs ∧ n ∣ whole.length := by
  refine ⟨xs.take (n * (xs.length / n)), (List.take_append_drop _ _).symm, xs.length / n, ?_⟩
  rw [List.length_take, Nat.min_eq_left (Nat.mul_div_le _ _)]

/-- A stream that grows only adds the frames of its unfinished frame and the new items. -/
theorem frames_append (pos : 0 < n) (xs ys : List α) :
    frames n (xs ++ ys) = frames n xs ++ frames n (rest n xs ++ ys) := by
  obtain ⟨whole, split, dvd⟩ := exists_whole n xs
  have own : frames n xs = frames n whole := by
    conv_lhs => rw [split]
    rw [frames_append_of_dvd pos dvd, frames_of_lt (rest_length_lt pos xs), List.append_nil]
  conv_lhs => rw [split]
  rw [List.append_assoc, frames_append_of_dvd pos dvd, own]

theorem rest_append (pos : 0 < n) (xs ys : List α) :
    rest n (xs ++ ys) = rest n (rest n xs ++ ys) := by
  obtain ⟨whole, split, dvd⟩ := exists_whole n xs
  conv_lhs => rw [split]
  rw [List.append_assoc, rest_append_of_dvd pos dvd]

end Frames
