import Mathlib.Data.Int.Notation
import Mathlib.Logic.Function.Iterate
import Mathlib.Order.Monotone.Basic
import Mathlib.Tactic.SplitIfs
import Mathlib.Algebra.Order.Ring.Int

/-! # The Gregorian calendar, day by day

A date is followed by the next day of its month, by the first of the next month or by the first
of January, and `ofDay` counts days from 1970-01-01 in both directions. Dates of later days are
greater, so no date comes twice, and the day of the month changes from every date to the next.
-/

namespace Gregorian

structure Date where
  year : ℤ
  month : ℤ
  day : ℤ
deriving DecidableEq, Repr

def IsLeap (year : ℤ) : Prop := year % 4 = 0 ∧ (year % 100 ≠ 0 ∨ year % 400 = 0)

instance (year : ℤ) : Decidable (IsLeap year) := inferInstanceAs (Decidable (_ ∧ _))

def monthDays (year month : ℤ) : ℤ :=
  if month = 2 then if IsLeap year then 29 else 28
  else if month = 4 ∨ month = 6 ∨ month = 9 ∨ month = 11 then 30
  else 31

theorem monthDays_bounds (year month : ℤ) : 28 ≤ monthDays year month ∧ monthDays year month ≤ 31 := by
  rw [monthDays]
  split_ifs
  all_goals decide

theorem monthDays_december (year : ℤ) : monthDays year 12 = 31 := rfl

namespace Date

def Valid (d : Date) : Prop := 1 ≤ d.month ∧ d.month ≤ 12 ∧ 1 ≤ d.day ∧ d.day ≤ monthDays d.year d.month

/-- The last day of its month. -/
def IsLast (d : Date) : Prop := monthDays d.year d.month ≤ d.day

instance (d : Date) : Decidable d.IsLast := inferInstanceAs (Decidable (_ ≤ _))

def next (d : Date) : Date :=
  if ¬ d.IsLast then { d with day := d.day + 1 }
  else if d.month < 12 then ⟨d.year, d.month + 1, 1⟩
  else ⟨d.year + 1, 1, 1⟩

def prev (d : Date) : Date :=
  if 1 < d.day then { d with day := d.day - 1 }
  else if 1 < d.month then ⟨d.year, d.month - 1, monthDays d.year (d.month - 1)⟩
  else ⟨d.year - 1, 12, 31⟩

theorem next_of_not_last {d : Date} (inside : ¬ d.IsLast) : d.next = { d with day := d.day + 1 } :=
  if_pos inside

/-- The cases of `next`: inside a month, at its end, at the end of the year. -/
theorem next_cases (d : Date) :
    ¬ d.IsLast ∧ d.next = ⟨d.year, d.month, d.day + 1⟩ ∨
      d.IsLast ∧ d.month < 12 ∧ d.next = ⟨d.year, d.month + 1, 1⟩ ∨
      d.IsLast ∧ ¬ d.month < 12 ∧ d.next = ⟨d.year + 1, 1, 1⟩ := by
  rw [next]
  split_ifs with last inside
  · exact .inr (.inl ⟨last, inside, rfl⟩)
  · exact .inr (.inr ⟨last, inside, rfl⟩)
  · exact .inl ⟨last, rfl⟩

theorem Valid.next {d : Date} (valid : d.Valid) : d.next.Valid := by
  obtain ⟨low, high, first, last⟩ := valid
  rcases d.next_cases with ⟨inside, same⟩ | ⟨-, inside, same⟩ | ⟨-, -, same⟩
  · rw [same]
    rw [IsLast] at inside
    exact ⟨low, high, by dsimp only; omega, by dsimp only; omega⟩
  · rw [same]
    have bounds := monthDays_bounds d.year (d.month + 1)
    exact ⟨by dsimp only; omega, by dsimp only; omega, le_rfl, by dsimp only; omega⟩
  · rw [same]
    have bounds := monthDays_bounds (d.year + 1) 1
    exact ⟨le_rfl, by dsimp only; omega, le_rfl, by dsimp only; omega⟩

theorem Valid.prev {d : Date} (valid : d.Valid) : d.prev.Valid := by
  obtain ⟨low, high, first, last⟩ := valid
  rw [Date.prev]
  split_ifs with inside month
  · exact ⟨low, high, by dsimp only; omega, by dsimp only; omega⟩
  · have bounds := monthDays_bounds d.year (d.month - 1)
    exact ⟨by dsimp only; omega, by dsimp only; omega, by dsimp only; omega, le_rfl⟩
  · exact ⟨by dsimp only; omega, le_rfl, by dsimp only; omega, le_rfl⟩

theorem Valid.next_prev {d : Date} (valid : d.Valid) : d.prev.next = d := by
  obtain ⟨year, month, day⟩ := d
  obtain ⟨low, high, first, last⟩ := valid
  dsimp only at low high first last
  rw [Date.prev]
  dsimp only
  split_ifs with inside more
  · rw [Date.next, if_pos (by rw [IsLast]; dsimp only; omega)]
    simp
  · rw [Date.next, if_neg (by rw [IsLast]; simp), if_pos (by dsimp only; omega)]
    simp only [sub_add_cancel, Date.mk.injEq, true_and]
    omega
  · rw [Date.next, if_neg (by rw [IsLast]; simp [monthDays_december]), if_neg (by simp)]
    simp only [sub_add_cancel, Date.mk.injEq, true_and]
    omega

/-- The day of the month changes. -/
theorem day_next_ne (d : Date) : d.next.day ≠ d.day := by
  have bounds := monthDays_bounds d.year d.month
  rcases d.next_cases with ⟨-, same⟩ | ⟨last, -, same⟩ | ⟨last, -, same⟩
  all_goals
    rw [same]
    try rw [IsLast] at last
    dsimp only
    omega

/-- A number that grows from each date to the next. -/
def rank (d : Date) : ℤ := (d.year * 12 + d.month) * 32 + d.day

theorem Valid.rank_lt_next {d : Date} (valid : d.Valid) : d.rank < d.next.rank := by
  obtain ⟨low, high, first, last⟩ := valid
  have bounds := monthDays_bounds d.year d.month
  rw [rank, rank]
  rcases d.next_cases with ⟨-, same⟩ | ⟨-, -, same⟩ | ⟨-, -, same⟩
  all_goals
    rw [same]
    dsimp only
    omega

/-- The date of a day, counted from 1970-01-01. -/
def ofDay : ℤ → Date
  | .ofNat n => next^[n] ⟨1970, 1, 1⟩
  | .negSucc n => prev^[n + 1] ⟨1970, 1, 1⟩

theorem valid_epoch : Valid ⟨1970, 1, 1⟩ := by
  refine ⟨?_, ?_, ?_, ?_⟩ <;> decide

theorem valid_ofDay (n : ℤ) : (ofDay n).Valid := by
  cases n with
  | ofNat n =>
    induction n with
    | zero => exact valid_epoch
    | succ n ih =>
      rw [ofDay, Function.iterate_succ_apply']
      exact ih.next
  | negSucc n =>
    induction n with
    | zero => exact valid_epoch.prev
    | succ n ih =>
      rw [ofDay, Function.iterate_succ_apply']
      exact ih.prev

theorem ofDay_succ (n : ℤ) : ofDay (n + 1) = (ofDay n).next := by
  cases n with
  | ofNat n => exact Function.iterate_succ_apply' ..
  | negSucc n =>
    rw [ofDay, Function.iterate_succ_apply']
    cases n with
    | zero => exact valid_epoch.next_prev.symm
    | succ n => exact (valid_ofDay (.negSucc n)).next_prev.symm

/-- Later days have greater dates. -/
theorem rank_ofDay_lt {n m : ℤ} (later : n < m) : (ofDay n).rank < (ofDay m).rank :=
  strictMono_int_of_lt_succ (f := fun n => (ofDay n).rank) (fun n => by
    rw [ofDay_succ]
    exact (valid_ofDay n).rank_lt_next) later

theorem ofDay_injective {n m : ℤ} (same : ofDay n = ofDay m) : n = m := by
  rcases lt_trichotomy n m with less | equal | greater
  · exact absurd (congrArg rank same) (rank_ofDay_lt less).ne
  · exact equal
  · exact absurd (congrArg rank same) (rank_ofDay_lt greater).ne'

/-- A number that grows by at most one from each date to the next: months count as 28 days. -/
def shortRank (d : Date) : ℤ := (d.year * 12 + d.month) * 28 + min d.day 28

theorem Valid.shortRank_next_le {d : Date} (valid : d.Valid) : d.next.shortRank ≤ d.shortRank + 1 := by
  obtain ⟨low, high, first, last⟩ := valid
  have bounds := monthDays_bounds d.year d.month
  rw [shortRank, shortRank]
  rcases d.next_cases with ⟨-, same⟩ | ⟨last, -, same⟩ | ⟨last, december, same⟩
  all_goals
    rw [same]
    try rw [IsLast] at last
    dsimp only
    omega

theorem shortRank_ofDay_le (n : ℕ) : (ofDay n).shortRank ≤ shortRank ⟨1970, 1, 1⟩ + n := by
  induction n with
  | zero => exact Int.le_refl _
  | succ n ih =>
    rw [Nat.cast_succ, ofDay_succ]
    have step := (valid_ofDay n).shortRank_next_le
    omega

/-- The days that a 32-bit time can give lie in years of four digits. -/
theorem year_ofDay {n : ℤ} (low : 0 ≤ n) (high : n ≤ 50000) : 1970 ≤ (ofDay n).year ∧ (ofDay n).year < 10000 := by
  obtain ⟨k, rfl⟩ := Int.eq_ofNat_of_zero_le low
  obtain ⟨first, twelve, one, last⟩ := valid_ofDay k
  have most := monthDays_bounds (ofDay k).year (ofDay k).month
  have below := shortRank_ofDay_le k
  have above : rank ⟨1970, 1, 1⟩ ≤ (ofDay k).rank := by
    rcases eq_or_lt_of_le low with zero | later
    · rw [← zero]
      exact Int.le_refl _
    · exact (rank_ofDay_lt later).le
  simp only [rank, shortRank] at above below
  omega

end Date

end Gregorian
