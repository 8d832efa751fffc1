import Mathlib.Data.List.Basic
import Mathlib.Data.BitVec

/-! # Windows of a stream in ring storage

A ring of `n` cells stores a window of an unbounded stream: the item with stream number `k` lives
in cell `k % n`. `Holds buf lo xs` says that the cells starting at number `lo` store `xs`. Pushing
at the far end, dropping at the near end and copying a run of cells that does not cross the end of
the storage are the three operations on such a window. The counters of the ring are stream
numbers cut to a machine word; `toNat_ofNat_sub_ofNat` recovers a distance from the cut numbers.
-/

namespace RingWindow

variable {α : Type*} {n : ℕ}

/-- Cell `(lo + i) % n` stores the `i`-th item of the window. -/
def Holds (buf : Vector α n) (lo : ℕ) (xs : List α) : Prop :=
  ∀ i x, xs[i]? = some x → buf[(lo + i) % n]? = some x

theorem Holds.nil (buf : Vector α n) (lo : ℕ) : Holds buf lo [] := by
  intro i x at_i
  simp at at_i

/-- Two numbers less than `n` apart in either direction share a cell only if they are equal. -/
theorem cell_inj {a b : ℕ} (near : a < b + n) (near' : b < a + n) :
    a % n = b % n ↔ a = b := by
  constructor
  · intro same
    rcases Nat.le_total a b with le | le
    · have zero := (Nat.sub_mod_eq_zero_of_mod_eq same.symm)
      rw [Nat.mod_eq_of_lt (by omega)] at zero
      omega
    · have zero := (Nat.sub_mod_eq_zero_of_mod_eq same)
      rw [Nat.mod_eq_of_lt (by omega)] at zero
      omega
  · rintro rfl; rfl

/-- A write just behind a window with a free cell extends it by the written item. -/
theorem Holds.push {buf : Vector α n} {lo : ℕ} {xs : List α} (holds : Holds buf lo xs)
    (room : xs.length < n) (x : α) (bound : (lo + xs.length) % n < n) :
    Holds (buf.set ((lo + xs.length) % n) x bound) lo (xs ++ [x]) := by
  intro i y at_i
  rcases Nat.lt_trichotomy i xs.length with old | rfl | beyond
  · have other : (lo + xs.length) % n ≠ (lo + i) % n := by
      rw [Ne, cell_inj (by omega) (by omega)]
      omega
    rw [List.getElem?_append_left old] at at_i
    rw [Vector.getElem?_set_ne bound other]
    exact holds i y at_i
  · rw [List.getElem?_concat_length] at at_i
    rw [Vector.getElem?_set_self bound, at_i]
  · rw [List.getElem?_eq_none (by simp only [List.length_append, List.length_singleton]; omega)]
      at at_i
    contradiction

/-- Dropping items at the near end only moves the start of the window. -/
theorem Holds.drop {buf : Vector α n} {lo : ℕ} {xs : List α} (holds : Holds buf lo xs)
    (k : ℕ) : Holds buf (lo + k) (xs.drop k) := by
  intro i x at_i
  rw [List.getElem?_drop] at at_i
  rw [Nat.add_assoc]
  exact holds (k + i) x at_i

/-- Copying cells that do not cross the end of the storage yields a slice of the window. -/
theorem Holds.copy {buf : Vector α n} {lo : ℕ} {xs : List α} (holds : Holds buf lo xs)
    {t k : ℕ} (inside : t + k ≤ xs.length) (uncrossed : (lo + t) % n + k ≤ n) :
    (buf.toList.drop ((lo + t) % n)).take k = (xs.drop t).take k := by
  apply List.ext_getElem?
  intro i
  rcases Nat.lt_or_ge i k with lt | ge
  · have cell : (lo + (t + i)) % n = (lo + t) % n + i := by
      rw [← Nat.add_assoc, Nat.add_mod, Nat.mod_eq_of_lt (show i < n by omega),
        Nat.mod_eq_of_lt (by omega)]
    have stored := holds (t + i) xs[t + i] (List.getElem?_eq_getElem (by omega))
    rw [cell] at stored
    rw [List.getElem?_take_of_lt lt, List.getElem?_take_of_lt lt, List.getElem?_drop,
      List.getElem?_drop, List.getElem?_eq_getElem (by omega : t + i < xs.length)]
    simpa only [← Vector.getElem?_toList] using stored
  · rw [List.getElem?_take_eq_none ge, List.getElem?_take_eq_none ge]

/-- The distance of two cut stream numbers is their true distance modulo the word. -/
theorem toNat_ofNat_sub_ofNat {w a b : ℕ} (le : a ≤ b) :
    (BitVec.ofNat w b - BitVec.ofNat w a).toNat = (b - a) % 2 ^ w := by
  obtain ⟨d, rfl⟩ := Nat.exists_eq_add_of_le le
  rw [BitVec.ofNat_add, BitVec.add_comm, BitVec.add_sub_cancel, BitVec.toNat_ofNat,
    Nat.add_sub_cancel_left]

theorem ofNat_add_one (w k : ℕ) : BitVec.ofNat w k + 1 = BitVec.ofNat w (k + 1) :=
  (BitVec.ofNat_add k 1).symm

theorem ofNat_add_one_sub_one (w k : ℕ) : BitVec.ofNat w (k + 1) - 1 = BitVec.ofNat w k := by
  rw [← ofNat_add_one, BitVec.add_sub_cancel]

theorem ofNat_eq_ofNat_iff {w a b : ℕ} (near : a < b + 2 ^ w) (near' : b < a + 2 ^ w) :
    BitVec.ofNat w a = BitVec.ofNat w b ↔ a = b := by
  rw [← cell_inj near near', ← BitVec.toNat_inj, BitVec.toNat_ofNat, BitVec.toNat_ofNat]

end RingWindow
