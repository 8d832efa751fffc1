import Vpu.ToMathlib.Blit
import Mathlib.Algebra.BigOperators.Ring.List
import Mathlib.Data.BitVec

/-! # Words in byte memory

`word` reads the four bytes from an address on as a little-endian word and `setWord` writes one. A word
that was written reads back, and a write beside a word leaves it as it was. `sum_bytes` is for words of
any number of bytes.
-/

namespace ByteWords

open Blit

/-- The word in the four bytes from `a` on. -/
def word (mem : ℕ → BitVec 8) (a : ℕ) : BitVec 32 := mem (a + 3) ++ mem (a + 2) ++ mem (a + 1) ++ mem a

/-- The bytes of a word, the lowest first. -/
def bytes (v : BitVec 32) : List (BitVec 8) :=
  [v.extractLsb' 0 8, v.extractLsb' 8 8, v.extractLsb' 16 8, v.extractLsb' 24 8]

def setWord (mem : ℕ → BitVec 8) (a : ℕ) (v : BitVec 32) : ℕ → BitVec 8 := blit mem a (bytes v)

variable {mem : ℕ → BitVec 8} {a b : ℕ} {v : BitVec 32}

theorem bytes_join (v : BitVec 32) :
    (v.extractLsb' 24 8 ++ v.extractLsb' 16 8 ++ v.extractLsb' 8 8 ++ v.extractLsb' 0 8 : BitVec 32) = v := by
  apply BitVec.eq_of_getLsbD_eq
  intro i lt
  simp only [BitVec.getLsbD_append, BitVec.getLsbD_extractLsb']
  split_ifs with first second third
  · rw [Nat.zero_add, decide_eq_true first, Bool.true_and]
  · rw [show 8 + (i - 8) = i by omega, decide_eq_true second, Bool.true_and]
  · rw [show 16 + (i - 8 - 8) = i by omega, decide_eq_true third, Bool.true_and]
  · rw [show 24 + (i - 8 - 8 - 8) = i by omega, decide_eq_true (by omega), Bool.true_and]

theorem word_setWord_self (mem : ℕ → BitVec 8) (a : ℕ) (v : BitVec 32) : word (setWord mem a v) a = v := by
  have cell : ∀ i (lt : i < 4), setWord mem a v (a + i) = (bytes v).get ⟨i, lt⟩ := fun i lt => blit_inside lt
  have first : setWord mem a v a = v.extractLsb' 0 8 := cell 0 (by decide)
  rw [word, cell 1 (by decide), cell 2 (by decide), cell 3 (by decide), first]
  exact bytes_join v

theorem word_congr {mem' : ℕ → BitVec 8} (same : ∀ i, i < 4 → mem (a + i) = mem' (b + i)) :
    word mem a = word mem' b := by
  rw [word, word, same 1 (by decide), same 2 (by decide), same 3 (by decide), show mem a = mem' b from same 0 (by decide)]

theorem word_blit_of_apart {off : ℕ} {xs : List (BitVec 8)} (apart : a + 4 ≤ off ∨ off + xs.length ≤ a) :
    word (blit mem off xs) a = word mem a := by
  apply word_congr
  intro i lt
  rcases apart with before | behind
  · exact blit_before (by omega)
  · exact blit_behind (by omega)

/-- A word of the source is copied with the bytes around it. -/
theorem word_blit_window {src : ℕ → BitVec 8} {off n d : ℕ} (inside : d + 4 ≤ n) :
    word (blit mem off (window src 0 n)) (off + d) = word src d := by
  apply word_congr
  intro i lt
  rw [Nat.add_assoc, blit, if_pos (Nat.le_add_right _ _), Nat.add_sub_cancel_left, window_getElem? (by omega),
    Nat.zero_add]
  rfl

theorem word_setWord_of_apart (apart : a + 4 ≤ b ∨ b + 4 ≤ a) : word (setWord mem b v) a = word mem a :=
  word_blit_of_apart apart

/-- A word that is written changes its four bytes only. -/
theorem setWord_of_apart {i : ℕ} (apart : i < a ∨ a + 4 ≤ i) : setWord mem a v i = mem i := by
  rcases apart with before | behind
  · exact blit_before before
  · exact blit_behind behind

/-- The digits of a number in base 256, put together again. -/
theorem sum_bytes (n k : ℕ) :
    ((List.range k).map fun i => n / 256 ^ i % 256 * 256 ^ i).sum = n % 256 ^ k := by
  induction k with
  | zero => exact (Nat.mod_one n).symm
  | succ k ih =>
    rw [List.range_succ, List.map_append, List.sum_append, ih, Nat.mod_pow_succ]
    simp only [List.map_cons, List.map_nil, List.sum_cons, List.sum_nil, Nat.add_zero, Nat.mul_comm]

/-- The digits of a number that is given by them. -/
theorem sum_div_mod {b : ℕ → ℕ} (small : ∀ k, b k < 256) {n i : ℕ} (lt : i < n) :
    ((List.range n).map fun k => b k * 256 ^ k).sum / 256 ^ i % 256 = b i := by
  have head (b : ℕ → ℕ) (n : ℕ) : ((List.range (n + 1)).map fun k => b k * 256 ^ k).sum =
      b 0 + 256 * ((List.range n).map fun k => b (k + 1) * 256 ^ k).sum := by
    rw [List.range_succ_eq_map, List.map_cons, List.map_map, List.sum_cons, ← List.sum_map_mul_left]
    simp only [Function.comp_def, Nat.pow_zero, Nat.mul_one, Nat.pow_succ, Nat.succ_eq_add_one]
    congr 3
    funext k
    rw [← Nat.mul_assoc, Nat.mul_comm _ 256]
  obtain ⟨n, rfl⟩ : ∃ m, n = m + 1 := ⟨n - 1, by omega⟩
  have digit := small 0
  induction i generalizing b n with
  | zero =>
    rw [head, Nat.pow_zero, Nat.div_one]
    omega
  | succ i ih =>
    rw [head, Nat.pow_succ', ← Nat.div_div_eq_div_mul, Nat.add_mul_div_left _ _ (by decide),
      Nat.div_eq_of_lt digit, Nat.zero_add]
    obtain ⟨m, rfl⟩ : ∃ m, n = m + 1 := ⟨n - 1, by omega⟩
    exact ih (fun k => small (k + 1)) m (by omega) (small 1)

end ByteWords
