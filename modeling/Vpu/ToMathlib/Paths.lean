import Mathlib.Data.List.Basic
import Mathlib.Data.List.DropRight
import Mathlib.Data.List.Infix

/-! # Paths written with a separator

`child sep dir name` is a name below a directory. A last name without the separator can be read back
from the path, and a path lies within a directory exactly when it is that directory or its parent lies
within. `squeeze` drops repeated and final separators, which mean nothing in a path. `leaf` is the last
name of any path, and `dirPart` what stands before it.
-/

namespace Paths

variable {α : Type*} (sep : α)

def child (dir name : List α) : List α := dir ++ sep :: name

/-- The path is `top` or below it. -/
def Within (top path : List α) : Prop := path = top ∨ child sep top [] <+: path

instance [DecidableEq α] (top path : List α) : Decidable (Within sep top path) :=
  inferInstanceAs (Decidable (_ ∨ _))

/-- The path without separators in front of another one or at the end. -/
def squeeze [DecidableEq α] : List α → List α
  | [] => []
  | a :: rest => if a = sep ∧ (rest = [] ∨ rest.head? = some sep) then squeeze rest else a :: squeeze rest

/-- What stands behind the last separator. -/
def leaf [DecidableEq α] (path : List α) : List α := path.rtakeWhile (· ≠ sep)

/-- The path up to its last separator. -/
def dirPart [DecidableEq α] (path : List α) : List α := path.rdropWhile (· ≠ sep)

variable {sep} {dir dir' name name' top path : List α}

@[simp] theorem length_child : (child sep dir name).length = dir.length + name.length + 1 := by
  rw [child, List.length_append, List.length_cons, Nat.add_assoc]

theorem mem_child {a : α} : a ∈ child sep dir name ↔ a ∈ dir ∨ a = sep ∨ a ∈ name := by
  rw [child, List.mem_append, List.mem_cons]

/-- The last name and the directory are determined by the path. -/
theorem child_inj (plain : sep ∉ name) (plain' : sep ∉ name') :
    child sep dir name = child sep dir' name' ↔ dir = dir' ∧ name = name' := by
  refine ⟨fun same => ?_, fun ⟨left, right⟩ => by rw [left, right]⟩
  rw [child, child] at same
  rcases List.append_eq_append_iff.mp same with ⟨middle, longer, rest⟩ | ⟨middle, longer, rest⟩
  · cases middle with
    | nil => exact ⟨by rw [longer, List.append_nil], (List.cons.inj rest).2⟩
    | cons a middle =>
      obtain ⟨-, inside⟩ := List.cons.inj rest
      exact absurd (inside ▸ List.mem_append_right middle (List.mem_cons_self ..)) plain
  · cases middle with
    | nil => exact ⟨by rw [longer, List.append_nil], (List.cons.inj rest).2.symm⟩
    | cons a middle =>
      obtain ⟨-, inside⟩ := List.cons.inj rest
      exact absurd (inside ▸ List.mem_append_right middle (List.mem_cons_self ..)) plain'

section Squeeze

variable [DecidableEq α]

theorem squeeze_of_plain (plain : sep ∉ name) : squeeze sep name = name := by
  induction name with
  | nil => rfl
  | cons a rest ih =>
    obtain ⟨first, others⟩ := not_or.mp (mt List.mem_cons.mpr plain)
    rw [squeeze, if_neg fun both => first both.1.symm, ih others]

theorem squeeze_child (plain : sep ∉ name) (some : name ≠ []) :
    squeeze sep (child sep dir name) = child sep (squeeze sep dir) name := by
  have single : squeeze sep (sep :: name) = sep :: name := by
    obtain ⟨a, rest, rfl⟩ := List.exists_cons_of_ne_nil some
    have other : a ≠ sep := fun same => plain (same ▸ List.mem_cons_self ..)
    rw [squeeze, if_neg, squeeze_of_plain plain]
    rintro ⟨-, none | head⟩
    · exact List.cons_ne_nil a rest none
    · exact other (Option.some.inj head)
  induction dir with
  | nil => exact single
  | cons a dir ih =>
    rw [child, child] at ih ⊢
    rw [List.cons_append, squeeze, squeeze]
    -- the separator of the child stands where `dir` may end
    cases dir with
    | nil =>
      by_cases same : a = sep
      · rw [if_pos ⟨same, .inr rfl⟩, if_pos ⟨same, .inl rfl⟩]
        exact ih
      · rw [if_neg fun both => same both.1, if_neg fun both => same both.1]
        exact congrArg (a :: ·) ih
    | cons b dir =>
      have alike : (a = sep ∧ ((b :: dir) ++ sep :: name = [] ∨ ((b :: dir) ++ sep :: name).head? = .some sep)) ↔
          a = sep ∧ (b :: dir = [] ∨ (b :: dir).head? = .some sep) := by
        simp
      by_cases drops : a = sep ∧ (b :: dir = [] ∨ (b :: dir).head? = .some sep)
      · rw [if_pos (alike.mpr drops), if_pos drops]
        exact ih
      · rw [if_neg (mt alike.mp drops), if_neg drops]
        exact congrArg (a :: ·) ih

end Squeeze

section Leaf

variable [DecidableEq α]

theorem leaf_child_eq : leaf sep (child sep dir name) = leaf sep name := by
  rw [leaf, leaf, List.rtakeWhile, List.rtakeWhile, child, List.reverse_append, List.reverse_cons, List.append_assoc]
  congr 1
  induction name.reverse with
  | nil => simp
  | cons a rest ih =>
    rw [List.cons_append, List.takeWhile_cons, List.takeWhile_cons, ih]

@[simp] theorem leaf_child (plain : sep ∉ name) : leaf sep (child sep dir name) = name := by
  rw [leaf_child_eq, leaf, List.rtakeWhile_eq_self_iff]
  intro a member
  exact decide_eq_true fun same => plain (same ▸ member)

@[simp] theorem dirPart_child (plain : sep ∉ name) : dirPart sep (child sep dir name) = child sep dir [] := by
  have whole : dirPart sep (child sep dir name) ++ leaf sep (child sep dir name) = child sep dir name :=
    List.rdropWhile_append_rtakeWhile
  rw [leaf_child plain] at whole
  apply List.append_cancel_right (whole.trans _)
  rw [child, child, List.append_assoc, List.singleton_append]

theorem leaf_suffix : leaf sep path <:+ path := List.rtakeWhile_suffix ..

end Leaf

theorem within_self : Within sep top top := .inl rfl

theorem Within.child (within : Within sep top dir) : Within sep top (child sep dir name) := by
  rcases within with rfl | ⟨rest, rfl⟩
  · exact .inr ⟨name, by simp [Paths.child]⟩
  · exact .inr ⟨rest ++ sep :: name, by simp [Paths.child]⟩

theorem within_child (plain : sep ∉ name) :
    Within sep top (child sep dir name) ↔ child sep dir name = top ∨ Within sep top dir := by
  refine ⟨fun within => ?_, fun either => either.elim .inl Within.child⟩
  rcases within with same | ⟨rest, below⟩
  · exact .inl same
  · right
    have whole : top ++ sep :: rest = dir ++ sep :: name := by simpa [Paths.child] using below
    rcases List.append_eq_append_iff.mp whole with ⟨middle, longer, tail⟩ | ⟨middle, longer, tail⟩
    · cases middle with
      | nil => exact .inl (by rw [longer, List.append_nil])
      | cons a middle =>
        obtain ⟨same, -⟩ := List.cons.inj tail
        exact .inr ⟨middle, by rw [longer, same]; simp [Paths.child]⟩
    · cases middle with
      | nil => exact .inl (by rw [longer, List.append_nil])
      | cons a middle =>
        obtain ⟨-, inside⟩ := List.cons.inj tail
        exact absurd (inside ▸ List.mem_append_right middle (List.mem_cons_self ..)) plain

end Paths
