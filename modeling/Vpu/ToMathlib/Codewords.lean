import Mathlib.Data.List.Flatten

/-! # Streams of codewords and their chunks

A stream is the concatenation of the codewords of some messages. A prefix-free code recovers the
messages from the stream. A chunking of the stream is `Aligned` if every chunk is itself
a concatenation of codewords; then the chunks split the messages, none of them over two chunks.
-/

namespace Codewords

variable {α β : Type*} (f : α → List β)

/-- A codeword is never empty and never the beginning of another one. -/
structure PrefixFree : Prop where
  ne_nil : ∀ x, f x ≠ []
  inj : ∀ x y xs ys, f x ++ xs = f y ++ ys → x = y

/-- Every chunk consists of whole codewords. -/
def Aligned (chunks : List (List β)) : Prop := ∀ chunk ∈ chunks, ∃ xs : List α, chunk = xs.flatMap f

variable {f}

theorem PrefixFree.flatMap_inj (free : PrefixFree f) {xs ys : List α}
    (same : xs.flatMap f = ys.flatMap f) : xs = ys := by
  induction xs generalizing ys with
  | nil =>
    cases ys with
    | nil => rfl
    | cons y ys => exact absurd (List.append_eq_nil_iff.mp same.symm).1 (free.ne_nil y)
  | cons x xs ih =>
    cases ys with
    | nil => exact absurd (List.append_eq_nil_iff.mp same).1 (free.ne_nil x)
    | cons y ys =>
      rw [List.flatMap_cons, List.flatMap_cons] at same
      obtain rfl := free.inj x y _ _ same
      rw [ih (List.append_cancel_left same)]

/-- Aligned chunks split the messages of their stream. -/
theorem Aligned.exists_parts {chunks : List (List β)} (aligned : Aligned f chunks) :
    ∃ parts : List (List α), chunks = parts.map (List.flatMap f) := by
  induction chunks with
  | nil => exact ⟨[], rfl⟩
  | cons chunk chunks ih =>
    obtain ⟨xs, rfl⟩ := aligned _ (List.mem_cons_self ..)
    obtain ⟨parts, rfl⟩ := ih fun other member => aligned other (List.mem_cons_of_mem _ member)
    exact ⟨xs :: parts, rfl⟩

theorem flatten_map_flatMap (parts : List (List α)) :
    (parts.map (List.flatMap f)).flatten = parts.flatten.flatMap f := by
  induction parts with
  | nil => rfl
  | cons part parts ih => rw [List.map_cons, List.flatten_cons, ih, List.flatten_cons, List.flatMap_append]

theorem PrefixFree.parts_flatten (free : PrefixFree f) {parts : List (List α)} {xs : List α}
    (stream : (parts.map (List.flatMap f)).flatten = xs.flatMap f) : parts.flatten = xs :=
  free.flatMap_inj ((flatten_map_flatMap parts).symm.trans stream)

end Codewords
