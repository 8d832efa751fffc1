import Vpu.ToMathlib.Tlv

/-! # Packed records of little-endian numbers

A record is a list of widths with a number for each; `pack` puts the bytes of the numbers one behind the other, the
lowest byte of each first, and `unpack` reads numbers of these widths off the front.
-/

namespace Packed

open Tlv

/-- The lowest `n` bytes of a number, the lowest of them first. -/
def toLE (n v : ℕ) : List (BitVec 8) := (toBE n v).reverse

def ofLE (bytes : List (BitVec 8)) : ℕ := ofBE bytes.reverse

@[simp] theorem toLE_length (n v : ℕ) : (toLE n v).length = n := by
  rw [toLE, List.length_reverse, toBE_length]

theorem ofLE_toLE {n v : ℕ} (fits : v < 256 ^ n) : ofLE (toLE n v) = v := by
  rw [ofLE, toLE, List.reverse_reverse, ofBE_toBE fits]

def pack (fields : List (ℕ × ℕ)) : List (BitVec 8) := fields.flatMap fun field => toLE field.1 field.2

def unpack : List ℕ → List (BitVec 8) → List ℕ
  | [], _ => []
  | width :: widths, bytes => ofLE (bytes.take width) :: unpack widths (bytes.drop width)

theorem pack_cons (field : ℕ × ℕ) (fields : List (ℕ × ℕ)) : pack (field :: fields) = toLE field.1 field.2 ++ pack fields :=
  List.flatMap_cons

theorem pack_length (fields : List (ℕ × ℕ)) : (pack fields).length = (fields.map Prod.fst).sum := by
  induction fields with
  | nil => rfl
  | cons field fields ih => rw [pack_cons, List.length_append, toLE_length, ih, List.map_cons, List.sum_cons]

/-- Numbers that fit their widths are read back. -/
theorem unpack_pack {fields : List (ℕ × ℕ)} (fits : ∀ field ∈ fields, field.2 < 256 ^ field.1) :
    unpack (fields.map Prod.fst) (pack fields) = fields.map Prod.snd := by
  induction fields with
  | nil => rfl
  | cons field fields ih =>
    obtain ⟨own, others⟩ := List.forall_mem_cons.mp fits
    rw [List.map_cons, List.map_cons, unpack, pack_cons, List.take_left' (toLE_length ..), List.drop_left' (toLE_length ..),
      ofLE_toLE own, ih others]

end Packed
