import Vpu.ToMathlib.Blit
import Mathlib.Data.BitVec

/-! # Structs in memory

`place` gives every member of a struct its offset: the next multiple of its alignment behind the member
before. `image` is the memory of the struct after all members have been assigned; what lies between two
members keeps what the memory held. Members never overlap, so each reads back from the image.
-/

namespace CLayout

open Blit

/-- The bytes of a number, the lowest first. -/
def toLE : ℕ → ℕ → List (BitVec 8)
  | 0, _ => []
  | n + 1, v => BitVec.ofNat 8 v :: toLE n (v / 256)

def ofLE : List (BitVec 8) → ℕ
  | [] => 0
  | b :: bytes => b.toNat + 256 * ofLE bytes

@[simp] theorem toLE_length (n v : ℕ) : (toLE n v).length = n := by
  induction n generalizing v with
  | zero => rfl
  | succ n ih => rw [toLE, List.length_cons, ih]

theorem ofLE_toLE {n v : ℕ} (fits : v < 256 ^ n) : ofLE (toLE n v) = v := by
  induction n generalizing v with
  | zero =>
    rw [Nat.pow_zero] at fits
    exact (Nat.lt_one_iff.mp fits).symm
  | succ n ih =>
    rw [Nat.pow_succ] at fits
    rw [toLE, ofLE, ih (by omega), BitVec.toNat_ofNat]
    omega

/-- The next multiple of `a` from `off` on. -/
def alignUp (a off : ℕ) : ℕ := (off + (a - 1)) / a * a

theorem le_alignUp {a : ℕ} (pos : 0 < a) (off : ℕ) : off ≤ alignUp a off := by
  have split := Nat.div_add_mod (off + (a - 1)) a
  have small := Nat.mod_lt (off + (a - 1)) pos
  rw [alignUp, Nat.mul_comm]
  omega

variable {α : Type*} {align : ℕ → ℕ}

/-- The members with their offsets; `align` gives the alignment of a member of this size. -/
def place (align : ℕ → ℕ) (off : ℕ) : List (List α) → List (ℕ × List α)
  | [] => []
  | m :: members => (alignUp (align m.length) off, m) ::
      place align (alignUp (align m.length) off + m.length) members

/-- Where the last member ends. -/
def lastEnd (align : ℕ → ℕ) (off : ℕ) : List (List α) → ℕ
  | [] => off
  | m :: members => lastEnd align (alignUp (align m.length) off + m.length) members

/-- `sizeof`: the end of the last member, up to the largest alignment. -/
def structSize (align : ℕ → ℕ) (members : List (List α)) : ℕ :=
  alignUp ((members.map fun m => align m.length).foldr max 1) (lastEnd align 0 members)

/-- Every member lies behind the start and before the end. -/
theorem place_inside (pos : ∀ n, 0 < align n) {off : ℕ} {members : List (List α)} :
    off ≤ lastEnd align off members ∧
      ∀ f ∈ place align off members, off ≤ f.1 ∧ f.1 + f.2.length ≤ lastEnd align off members := by
  induction members generalizing off with
  | nil => exact ⟨Nat.le_refl _, fun f member => absurd member List.not_mem_nil⟩
  | cons m members ih =>
    have aligned := le_alignUp (pos m.length) off
    obtain ⟨ends, others⟩ := @ih (alignUp (align m.length) off + m.length)
    rw [lastEnd, place]
    refine ⟨by omega, List.forall_mem_cons.mpr ⟨⟨aligned, ends⟩, fun f member => ?_⟩⟩
    obtain ⟨start, stop⟩ := others f member
    exact ⟨by omega, stop⟩

/-- A member ends before the next ones begin. -/
theorem place_apart (pos : ∀ n, 0 < align n) {off : ℕ} {members : List (List α)} :
    (place align off members).Pairwise fun f g => f.1 + f.2.length ≤ g.1 := by
  induction members generalizing off with
  | nil => exact .nil
  | cons m members ih => exact .cons (fun f member => ((place_inside pos).2 f member).1) ih

/-- The members are assigned. -/
def store (mem : ℕ → α) (fields : List (ℕ × List α)) : ℕ → α :=
  fields.foldl (fun mem f => blit mem f.1 f.2) mem

theorem window_store_of_apart {mem : ℕ → α} {fields : List (ℕ × List α)} {off n : ℕ}
    (apart : ∀ f ∈ fields, off + n ≤ f.1) : window (store mem fields) off n = window mem off n := by
  induction fields generalizing mem with
  | nil => rfl
  | cons f fields ih =>
    obtain ⟨first, others⟩ := List.forall_mem_cons.mp apart
    exact (ih others).trans (window_blit_apart (.inl first))

/-- A member that is assigned reads back. -/
theorem window_store {mem : ℕ → α} {fields : List (ℕ × List α)} {f : ℕ × List α} (member : f ∈ fields)
    (apart : fields.Pairwise fun f g => f.1 + f.2.length ≤ g.1) :
    window (store mem fields) f.1 f.2.length = f.2 := by
  induction fields generalizing mem with
  | nil => exact absurd member List.not_mem_nil
  | cons g fields ih =>
    obtain ⟨behind, rest⟩ := List.pairwise_cons.mp apart
    rcases List.mem_cons.mp member with rfl | later
    · exact (window_store_of_apart behind).trans (window_blit_self ..)
    · exact ih later rest

/-- The memory of the struct. -/
def image (align : ℕ → ℕ) (mem : ℕ → α) (members : List (List α)) : List α :=
  window (store mem (place align 0 members)) 0 (structSize align members)

@[simp] theorem image_length (mem : ℕ → α) (members : List (List α)) :
    (image align mem members).length = structSize align members := window_length ..

/-- `n` items from an offset on. -/
def field (xs : List α) (off n : ℕ) : List α := (xs.drop off).take n

/-- The part of a field behind its first `k` items, and the part before. -/
theorem field_skip {xs : List α} {off k n : ℕ} : field xs (off + k) n = (field xs off (k + n)).drop k := by
  rw [field, field, List.drop_take, List.drop_drop, Nat.add_sub_cancel_left]

theorem field_start {xs : List α} {off k n : ℕ} (le : k ≤ n) : field xs off k = (field xs off n).take k := by
  rw [field, field, List.take_take, Nat.min_eq_left le]

theorem field_window {mem : ℕ → α} {size off n : ℕ} (inside : off + n ≤ size) (rest : List α) :
    field (window mem 0 size ++ rest) off n = window mem off n := by
  obtain ⟨k, rfl⟩ := Nat.exists_eq_add_of_le inside
  have before : (window mem 0 off).length = off := window_length ..
  have own : (window mem (0 + off) n).length = n := window_length ..
  rw [field, window_append, window_append, List.append_assoc, List.append_assoc, List.drop_left' before,
    List.take_left' own, Nat.zero_add]

/-- A member reads back from the image, whatever lies behind it. -/
theorem field_image (pos : ∀ n, 0 < align n) {mem : ℕ → α} {members : List (List α)} {f : ℕ × List α}
    (member : f ∈ place align 0 members) (rest : List α) :
    field (image align mem members ++ rest) f.1 f.2.length = f.2 := by
  have inside := ((place_inside pos).2 f member).2
  have size : lastEnd align 0 members ≤ structSize align members := by
    refine le_alignUp ?_ _
    induction members.map fun m => align m.length with
    | nil => exact Nat.one_pos
    | cons a as ih => exact lt_of_lt_of_le ih (Nat.le_max_right ..)
  rw [image, field_window (inside.trans size), window_store member (place_apart pos)]

end CLayout
