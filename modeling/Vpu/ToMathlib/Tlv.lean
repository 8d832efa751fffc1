import Mathlib.Data.List.Basic
import Mathlib.Data.BitVec

/-! # Records of type, length and value in network order

`toBE` writes a number as bytes, the highest first, and `ofBE` reads bytes back. A `Tlv` is written as two bytes
of type, two of length and its value; `readTlvs` reads one behind the other until nothing is left. What
was written is read back, and nothing more.
-/

namespace Tlv

/-- The lowest `n` bytes of a number, the highest of them first. -/
def toBE : ℕ → ℕ → List (BitVec 8)
  | 0, _ => []
  | n + 1, v => toBE n (v / 256) ++ [BitVec.ofNat 8 v]

def ofBE (bytes : List (BitVec 8)) : ℕ := bytes.foldl (fun v b => 256 * v + b.toNat) 0

@[simp] theorem toBE_length (n v : ℕ) : (toBE n v).length = n := by
  induction n generalizing v with
  | zero => rfl
  | succ n ih => rw [toBE, List.length_append, ih, List.length_singleton]

theorem ofBE_toBE {n v : ℕ} (fits : v < 256 ^ n) : ofBE (toBE n v) = v := by
  induction n generalizing v with
  | zero =>
    rw [Nat.pow_zero] at fits
    exact (Nat.lt_one_iff.mp fits).symm
  | succ n ih =>
    rw [Nat.pow_succ] at fits
    have high := ih (v := v / 256) (by omega)
    rw [ofBE] at high
    rw [toBE, ofBE, List.foldl_append, high, List.foldl_cons, List.foldl_nil, BitVec.toNat_ofNat]
    omega

structure Record where
  type : ℕ
  value : List (BitVec 8)
deriving DecidableEq, Repr

namespace Record

/-- Type and length have two bytes each. -/
def Fits (r : Record) : Prop := r.type < 65536 ∧ r.value.length < 65536

def write (r : Record) : List (BitVec 8) := toBE 2 r.type ++ toBE 2 r.value.length ++ r.value

@[simp] theorem write_length (r : Record) : r.write.length = 4 + r.value.length := by
  simp only [write, List.length_append, toBE_length]

end Record

/-- All records of these bytes, or `none` if the last one is cut. -/
def readTlvs : List (BitVec 8) → Option (List Record)
  | [] => some []
  | t₁ :: t₀ :: l₁ :: l₀ :: rest =>
    let len := ofBE [l₁, l₀]
    if len ≤ rest.length then (readTlvs (rest.drop len)).map (⟨ofBE [t₁, t₀], rest.take len⟩ :: ·) else none
  | _ => none
termination_by bytes => bytes.length
decreasing_by exact Nat.lt_of_le_of_lt (List.drop_sublist _ _).length_le (Nat.lt_add_of_pos_right (Nat.zero_lt_succ 3))

theorem readTlvs_nil : readTlvs [] = some [] := by
  rw [readTlvs]

/-- A record in front is read off, and what follows is read behind it. -/
theorem readTlvs_write {r : Record} (fits : r.Fits) (rest : List (BitVec 8)) :
    readTlvs (r.write ++ rest) = (readTlvs rest).map (r :: ·) := by
  have type : ofBE (toBE 2 r.type) = r.type := ofBE_toBE fits.1
  have len : ofBE (toBE 2 r.value.length) = r.value.length := ofBE_toBE fits.2
  have bytes : r.write ++ rest = BitVec.ofNat 8 (r.type / 256) :: BitVec.ofNat 8 r.type ::
      BitVec.ofNat 8 (r.value.length / 256) :: BitVec.ofNat 8 r.value.length :: (r.value ++ rest) := by
    simp [Record.write, toBE]
  change ofBE [BitVec.ofNat 8 (r.type / 256), BitVec.ofNat 8 r.type] = _ at type
  change ofBE [BitVec.ofNat 8 (r.value.length / 256), BitVec.ofNat 8 r.value.length] = _ at len
  rw [bytes, readTlvs, type, len, if_pos (by rw [List.length_append]; omega), List.take_left, List.drop_left]

/-- Records that were written one behind the other are read back. -/
theorem readTlvs_flatMap {records : List Record} (fits : ∀ r ∈ records, r.Fits) :
    readTlvs (records.flatMap Record.write) = some records := by
  induction records with
  | nil => exact readTlvs_nil
  | cons r records ih =>
    obtain ⟨first, others⟩ := List.forall_mem_cons.mp fits
    rw [List.flatMap_cons, readTlvs_write first, ih others, Option.map_some]

/-- Numbers of these widths, one behind the other and nothing else. -/
def readNumbers : List ℕ → List (BitVec 8) → Option (List ℕ)
  | [], [] => some []
  | [], _ :: _ => none
  | w :: widths, bytes =>
    if w ≤ bytes.length then (readNumbers widths (bytes.drop w)).map (ofBE (bytes.take w) :: ·) else none

theorem readNumbers_flatMap {α : Type*} {items : List α} (width value : α → ℕ)
    (fits : ∀ i ∈ items, value i < 256 ^ width i) :
    readNumbers (items.map width) (items.flatMap fun i => toBE (width i) (value i)) = some (items.map value) := by
  induction items with
  | nil => rfl
  | cons i items ih =>
    obtain ⟨first, others⟩ := List.forall_mem_cons.mp fits
    have size : (toBE (width i) (value i)).length = width i := toBE_length ..
    rw [List.map_cons, List.flatMap_cons, readNumbers, if_pos (by rw [List.length_append, size]; omega),
      List.drop_left' size, List.take_left' size, ih others, ofBE_toBE first]
    rfl

end Tlv
