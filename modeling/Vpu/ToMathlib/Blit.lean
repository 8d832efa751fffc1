import Mathlib.Data.List.GetD
import Mathlib.Data.List.Basic
import Mathlib.Logic.Function.Basic

/-! # Copies into byte buffers

A buffer is the memory from its first cell on. `blit` is a `memcpy` into it at an offset and
`window` reads a run of cells back. A copy changes nothing outside its own cells, reading the copied
cells returns the copied items, and a copy just behind a window extends it.
-/

namespace Blit

variable {α : Type*}

/-- `memcpy (buf + off) xs`. -/
def blit (buf : ℕ → α) (off : ℕ) (xs : List α) : ℕ → α := fun i =>
  if off ≤ i then xs[i - off]?.getD (buf i) else buf i

/-- The `n` cells from `off` on. -/
def window (buf : ℕ → α) (off n : ℕ) : List α := (List.range n).map (fun i => buf (off + i))

@[simp] theorem window_length (buf : ℕ → α) (off n : ℕ) : (window buf off n).length = n := by
  simp [window]

theorem blit_before {buf : ℕ → α} {off i : ℕ} {xs : List α} (before : i < off) :
    blit buf off xs i = buf i := by
  rw [blit, if_neg (by omega)]

theorem blit_behind {buf : ℕ → α} {off i : ℕ} {xs : List α} (behind : off + xs.length ≤ i) :
    blit buf off xs i = buf i := by
  rw [blit, if_pos (by omega), List.getElem?_eq_none (by omega)]
  rfl

theorem blit_inside {buf : ℕ → α} {off i : ℕ} {xs : List α} (inside : i < xs.length) :
    blit buf off xs (off + i) = xs[i] := by
  rw [blit, if_pos (by omega), Nat.add_sub_cancel_left, List.getElem?_eq_getElem inside]
  rfl

/-- A cell is either untouched or holds a copied item. -/
theorem blit_cases (buf : ℕ → α) (off : ℕ) (xs : List α) (i : ℕ) :
    blit buf off xs i = buf i ∨ blit buf off xs i ∈ xs := by
  by_cases le : off ≤ i
  · by_cases lt : i - off < xs.length
    · right
      obtain ⟨d, rfl⟩ := Nat.exists_eq_add_of_le le
      rw [Nat.add_sub_cancel_left] at lt
      rw [blit_inside lt]
      exact List.getElem_mem lt
    · exact .inl (blit_behind (by omega))
  · exact .inl (blit_before (by omega))

theorem window_getElem? {buf : ℕ → α} {off n i : ℕ} (inside : i < n) :
    (window buf off n)[i]? = some (buf (off + i)) := by
  simp [window, inside]

theorem window_append (buf : ℕ → α) (off n k : ℕ) :
    window buf off (n + k) = window buf off n ++ window buf (off + n) k := by
  simp only [window, List.range_add, List.map_append, List.map_map, Function.comp_def, Nat.add_assoc]

theorem window_congr {buf buf' : ℕ → α} {off n : ℕ}
    (same : ∀ i, i < n → buf (off + i) = buf' (off + i)) : window buf off n = window buf' off n :=
  List.map_congr_left fun i member => same i (List.mem_range.mp member)

theorem window_blit_before {buf : ℕ → α} {off n : ℕ} {xs : List α} (before : n ≤ off) :
    window (blit buf off xs) 0 n = window buf 0 n :=
  window_congr fun i lt => blit_before (by omega)

theorem window_blit_apart {buf : ℕ → α} {off n pos : ℕ} {xs : List α}
    (apart : off + n ≤ pos ∨ pos + xs.length ≤ off) : window (blit buf pos xs) off n = window buf off n := by
  apply window_congr
  intro i lt
  rcases apart with before | behind
  · exact blit_before (by omega)
  · exact blit_behind (by omega)

theorem window_blit_self (buf : ℕ → α) (off : ℕ) (xs : List α) :
    window (blit buf off xs) off xs.length = xs := by
  apply List.ext_getElem
  · rw [window_length]
  · intro i left right
    simp only [window, List.getElem_map, List.getElem_range, blit_inside right]

theorem window_blit_of_length {buf : ℕ → α} {off n : ℕ} {xs : List α} (length : xs.length = n) :
    window (blit buf off xs) off n = xs := by
  rw [← length, window_blit_self]

/-- A copy just behind the first `n` cells extends them by the copied items. -/
theorem window_blit_append (buf : ℕ → α) (n : ℕ) (xs : List α) :
    window (blit buf n xs) 0 (n + xs.length) = window buf 0 n ++ xs := by
  rw [window_append, window_blit_before (Nat.le_refl n), Nat.zero_add, window_blit_self]

/-- A buffer of `cap` cells that keeps the beginning of a stream, as far as it has room. -/
structure KeepsPrefix (buf : ℕ → α) (len cap : ℕ) (stream : List α) : Prop where
  length : len = min stream.length cap
  cells : window buf 0 len = stream.take cap

namespace KeepsPrefix

variable {buf : ℕ → α} {len cap : ℕ} {stream : List α}

theorem empty (buf : ℕ → α) (cap : ℕ) : KeepsPrefix buf 0 cap [] :=
  ⟨(Nat.zero_min cap).symm, List.take_nil.symm⟩

/-- While there is room, the buffer holds the whole stream, and what is added fills the room. -/
theorem append (keeps : KeepsPrefix buf len cap stream) (room : len < cap) (xs : List α) :
    KeepsPrefix (blit buf len (xs.take (cap - len))) (len + (xs.take (cap - len)).length) cap (stream ++ xs) := by
  have whole : stream.length = len := by
    have length := keeps.length
    omega
  refine ⟨?_, ?_⟩
  · rw [List.length_take, List.length_append, whole]
    omega
  · rw [window_blit_append, keeps.cells, List.take_append, whole]

/-- A full buffer already holds the beginning of whatever follows. -/
theorem full (keeps : KeepsPrefix buf len cap stream) (room : ¬ len < cap) (xs : List α) :
    KeepsPrefix buf len cap (stream ++ xs) := by
  have length := keeps.length
  have long : cap ≤ stream.length := by omega
  refine ⟨?_, ?_⟩
  · rw [List.length_append]
    omega
  · rw [keeps.cells, List.take_append_of_le_length long]

end KeepsPrefix

/-- A buffer of `cap` cells that begins with a stream, as far as it has room, and holds filler behind it. -/
def Padded (buf : ℕ → α) (cap : ℕ) (filler : α) (stream : List α) : Prop := ∀ i < cap, buf i = stream.getD i filler

namespace Padded

variable {buf : ℕ → α} {cap : ℕ} {filler : α} {stream : List α}

/-- While there is room, what is added overwrites filler. -/
theorem append (padded : Padded buf cap filler stream) (xs : List α) :
    Padded (blit buf stream.length (xs.take (cap - stream.length))) cap filler (stream ++ xs) := by
  intro i inside
  rcases Nat.lt_or_ge i stream.length with before | behind
  · rw [blit_before before, padded i inside, List.getD_append _ _ _ _ before]
  · obtain ⟨j, rfl⟩ := Nat.exists_eq_add_of_le behind
    rw [List.getD_append_right _ _ _ _ behind, Nat.add_sub_cancel_left]
    rcases Nat.lt_or_ge j xs.length with own | rest
    · have short : j < (xs.take (cap - stream.length)).length := by
        rw [List.length_take]
        omega
      rw [blit_inside short, List.getElem_take, List.getD_eq_getElem _ _ own]
    · rw [blit_behind (by rw [List.length_take]; omega), padded _ inside, List.getD_eq_default _ _ behind,
        List.getD_eq_default _ _ rest]

/-- A full buffer does not change any more. -/
theorem full (padded : Padded buf cap filler stream) (long : cap ≤ stream.length) (xs : List α) :
    Padded buf cap filler (stream ++ xs) := by
  intro i inside
  rw [padded i inside, List.getD_append _ _ _ _ (Nat.lt_of_lt_of_le inside long)]

theorem window_eq (padded : Padded buf cap filler stream) :
    window buf 0 cap = (stream.take cap).rightpad cap filler := by
  apply List.ext_getElem
  · rw [window_length, List.length_rightpad, List.length_take]
    omega
  · intro i left right
    rw [window_length] at left
    simp only [window, List.getElem_map, List.getElem_range, Nat.zero_add, padded i left, List.rightpad]
    rcases Nat.lt_or_ge i stream.length with own | rest
    · rw [List.getD_eq_getElem _ _ own, List.getElem_append_left (by rw [List.length_take]; omega), List.getElem_take]
    · rw [List.getD_eq_default _ _ rest, List.getElem_append_right (by rw [List.length_take]; omega),
        List.getElem_replicate]

end Padded

/-- A list laid out in memory reads back. -/
theorem window_getD (xs : List α) (d : α) : window (xs.getD · d) 0 xs.length = xs := by
  apply List.ext_getElem
  · rw [window_length]
  · intro i left right
    simp only [window, List.getElem_map, List.getElem_range, Nat.zero_add,
      List.getD_eq_getElem?_getD, List.getElem?_eq_getElem right, Option.getD_some]

end Blit
