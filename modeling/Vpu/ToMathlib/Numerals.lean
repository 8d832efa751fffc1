import Mathlib.Data.Nat.Digits.Defs

/-! # Numerals of a fixed width

`numeral b w n` are the digits of `n` to a base of at most 16, padded with zeros to `w` characters. A
number that fits has exactly `w` characters, and the characters give the number back, so
padded numerals are injective.
-/

namespace Numerals

/-- `%0<w>d` or `%0<w>x` of a natural number. -/
def numeral (b w n : ℕ) : List Char := (Nat.toDigits b n).leftpad w '0'

/-- The value of a digit in lower case. -/
def digitVal (c : Char) : ℕ := if c.toNat < 97 then c.toNat - 48 else c.toNat - 87

/-- Reading digits from the left. -/
def value (b : ℕ) (digits : List Char) : ℕ := digits.foldl (fun acc c => b * acc + digitVal c) 0

theorem digitVal_digitChar {d : ℕ} (small : d < 16) : digitVal d.digitChar = d := by
  have all : ∀ d < 16, digitVal (Nat.digitChar d) = d := by decide
  exact all d small

theorem value_concat (b : ℕ) (digits : List Char) (c : Char) :
    value b (digits ++ [c]) = b * value b digits + digitVal c := by
  rw [value, List.foldl_append]
  rfl

theorem value_toDigits {b : ℕ} (two : 1 < b) (hex : b ≤ 16) (n : ℕ) : value b (Nat.toDigits b n) = n := by
  induction n using Nat.strongRecOn with
  | ind n ih =>
    rcases Nat.lt_or_ge n b with lt | ge
    · rw [Nat.toDigits_of_lt_base lt, value, List.foldl_cons, List.foldl_nil, Nat.mul_zero, Nat.zero_add]
      exact digitVal_digitChar (by omega)
    · have less : n / b < n := Nat.div_lt_self (by omega) two
      rw [Nat.toDigits_of_base_le two ge, value_concat, ih _ less,
        digitVal_digitChar ((Nat.mod_lt n (by omega)).trans_le hex), Nat.div_add_mod]

/-- Leading zeros do not change the value. -/
theorem value_zeros (b k : ℕ) (digits : List Char) :
    value b (List.replicate k '0' ++ digits) = value b digits := by
  induction k with
  | zero => rfl
  | succ k ih =>
    rw [List.replicate_succ, List.cons_append, value, List.foldl_cons, Nat.mul_zero]
    exact ih

theorem value_numeral {b : ℕ} (two : 1 < b) (hex : b ≤ 16) (w n : ℕ) : value b (numeral b w n) = n := by
  rw [numeral, List.leftpad, value_zeros, value_toDigits two hex]

theorem numeral_length {b w n : ℕ} (two : 1 < b) (pos : 0 < w) (fits : n < b ^ w) :
    (numeral b w n).length = w := by
  have le := (Nat.length_toDigits_le_iff two pos).mpr fits
  rw [numeral, List.length_leftpad, Nat.max_eq_left le]

theorem mem_toDigits {b n : ℕ} (two : 1 < b) (hex : b ≤ 16) {c : Char} (member : c ∈ Nat.toDigits b n) :
    ∃ d < 16, c = Nat.digitChar d := by
  induction n using Nat.strongRecOn with
  | ind n ih =>
    rcases Nat.lt_or_ge n b with lt | ge
    · rw [Nat.toDigits_of_lt_base lt] at member
      exact ⟨n, lt.trans_le hex, List.mem_singleton.mp member⟩
    · rw [Nat.toDigits_of_base_le two ge] at member
      rcases List.mem_append.mp member with before | last
      · exact ih _ (Nat.div_lt_self (by omega) two) before
      · exact ⟨n % b, (Nat.mod_lt n (by omega)).trans_le hex, List.mem_singleton.mp last⟩

/-- A numeral has digits only. -/
theorem mem_numeral {b w n : ℕ} (two : 1 < b) (hex : b ≤ 16) {c : Char} (member : c ∈ numeral b w n) :
    ∃ d < 16, c = Nat.digitChar d := by
  rcases List.mem_append.mp member with zero | digit
  · exact ⟨0, by decide, List.eq_of_mem_replicate zero⟩
  · exact mem_toDigits two hex digit

theorem numeral_inj {b w n m : ℕ} (two : 1 < b) (hex : b ≤ 16)
    (same : numeral b w n = numeral b w m) : n = m := by
  rw [← value_numeral two hex w n, same, value_numeral two hex]

end Numerals
