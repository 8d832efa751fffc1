import Vpu.Model.Core.CheckFilename
import Vpu.ToMathlib.Gregorian

/-! # The names that `check_filename` accepts

Behind the scan the function accepts exactly the valid dates of three years. But a dash that the scan reaches is
counted again and again: where a name has a dash behind nothing but digits the function never returns, and
for every other name it returns -2.
-/

namespace Vpu.Soundness.DateNames

open Vpu.Model.Core Loops Gregorian

/-! ## What the function is for -/

/-- `stat` finds a directory. -/
def IsDir (status : StatResult) : Prop := status.result = 0 ∧ status.stMode &&& sIfmt = sIfdir

def Digits (n : ℕ) (string : CString) : Prop := string.length = n ∧ ∀ c ∈ string, c.isDigit = true

/-- `dddd-dd-dd`, a valid date in the year before, the current or the next. -/
def NamesDate (tp : Tm) (name : CString) : Prop :=
  ∃ year mon day, Digits 4 year ∧ Digits 2 mon ∧ Digits 2 day ∧ name = year ++ '-' :: (mon ++ '-' :: day) ∧
    Date.Valid ⟨Numerals.value 10 year, Numerals.value 10 mon, Numerals.value 10 day⟩ ∧
    |(Numerals.value 10 year : ℤ) - (tp.tmYear + 1900)| ≤ 1

/-- The function returns this. -/
def Gives (stat : CString → StatResult) (tp : Tm) (name : CString) (result : ℤ) : Prop :=
  ∃ turns, checkFilename stat tp turns (some name) = some result

/-- The function returns, and accepts a directory exactly when its name is such a date. -/
def Meets (stat : CString → StatResult) (tp : Tm) (name : CString) : Prop :=
  (∃ result, Gives stat tp name result) ∧ (IsDir (stat name) → (Gives stat tp name 0 ↔ NamesDate tp name))

/-- A dash behind nothing but digits. -/
def DashFirst (name : CString) : Prop := (name.dropWhile Char.isDigit).head? = some '-'

instance (name : CString) : Decidable (DashFirst name) := inferInstanceAs (Decidable (_ = _))

/-! ## Behind the scan -/

theorem dayRefused_iff {year mon day : ℤ} (low : 1 ≤ mon) (high : mon ≤ 12) :
    dayRefused year mon day = true ↔ day < 1 ∨ monthDays year mon < day := by
  have leap : (year % 4 = 0 ∧ year % 100 ≠ 0) ∨ year % 400 = 0 ↔ IsLeap year := by
    rw [IsLeap]
    omega
  rw [dayRefused, monthDays]
  simp only [List.mem_cons, List.not_mem_nil, or_false, leap]
  split_ifs <;> simp only [Bool.or_eq_true, decide_eq_true_eq, true_iff] <;> omega

/-- With the counts right, exactly the valid dates of three years are accepted. -/
theorem checkCounted_eq_zero_iff {stat : CString → StatResult} {tp : Tm} {name : CString} (dir : IsDir (stat name)) :
    checkCounted stat tp name 8 2 = 0 ↔ Date.Valid ⟨nameField name 0 4, nameField name 5 2, nameField name 8 2⟩ ∧
      |nameField name 0 4 - (tp.tmYear + 1900)| ≤ 1 := by
  rw [checkCounted, if_neg (by decide), if_neg (fun bad => bad.1 dir.1), Date.Valid, abs_le]
  dsimp only
  split_ifs with year mon day
  · exact iff_of_false (by decide) (by omega)
  · exact iff_of_false (by decide) (by omega)
  · rw [dayRefused_iff (by omega) (by omega)] at day
    exact iff_of_false (by decide) (by omega)
  · rw [dayRefused_iff (by omega) (by omega)] at day
    exact iff_of_true rfl (by omega)

/-! ## The scan -/

theorem isDigit_iff (c : Char) : c.isDigit = true ↔ ¬ (c < '0' ∨ c > '9') := by
  rw [Char.isDigit, Bool.and_eq_true, decide_eq_true_eq, decide_eq_true_eq, not_or, Char.not_lt, Char.not_lt]
  rfl

/-- A dash that the scan is bound for keeps it going. -/
theorem scanTurn_of_dashFirst (s : NameScan) (dash : DashFirst s.p) : ∃ s', scanTurn s = .inl s' ∧ DashFirst s'.p := by
  obtain ⟨p, count, num⟩ := s
  cases p with
  | nil => exact absurd dash (Option.some_ne_none '-').symm
  | cons c p =>
    rw [scanTurn]
    dsimp only
    split_ifs with here other
    · exact ⟨_, rfl, dash⟩
    · have stays : Char.isDigit c = false := Bool.eq_false_iff.mpr fun digit => (isDigit_iff c).mp digit other
      rw [DashFirst, List.dropWhile_cons_of_neg (by rw [stays]; decide)] at dash
      exact absurd (Option.some.inj dash) here
    · have digit := (isDigit_iff c).mpr other
      rw [DashFirst, List.dropWhile_cons_of_pos digit] at dash
      exact ⟨_, rfl, dash⟩

/-- Any other scan ends, and has counted no dash. -/
theorem returns_of_not_dashFirst {p : CString} {count : ℕ} {num : ℕ} (other : ¬ DashFirst p) :
    ∃ scanned, Returns scanTurn ⟨p, count, num⟩ scanned ∧ ∀ c n, scanned = some (c, n) → n = num := by
  induction p generalizing count with
  | nil =>
    have turn : scanTurn ⟨[], count, num⟩ = .inr (some (count, num)) := rfl
    refine ⟨_, (returns_of_stops turn).mpr rfl, fun c n same => ?_⟩
    cases same
    rfl
  | cons c p ih =>
    have dash : c ≠ '-' := by
      rintro rfl
      exact other rfl
    have turn : scanTurn ⟨c :: p, count, num⟩ =
        if c < '0' ∨ c > '9' then .inr none else .inl ⟨p, count + 1, num⟩ := if_neg dash
    rcases Decidable.em (c < '0' ∨ c > '9') with stops | goes
    · rw [if_pos stops] at turn
      exact ⟨none, (returns_of_stops turn).mpr rfl, by simp⟩
    · rw [if_neg goes] at turn
      rw [DashFirst, List.dropWhile_cons_of_pos ((isDigit_iff c).mpr goes)] at other
      obtain ⟨scanned, ends, counted⟩ := @ih (count + 1) other
      exact ⟨scanned, (returns_of_goes turn).mpr ends, counted⟩

/-! ## The function -/

section Function

variable {stat : CString → StatResult} {tp : Tm} {name : CString} {result : ℤ}

theorem gives_iff : Gives stat tp name result ↔
    ∃ scanned, Returns scanTurn ⟨name, 0, 0⟩ scanned ∧ afterScan stat tp name scanned = result := by
  simp only [Gives, checkFilename, Option.map_eq_some_iff, Returns]
  exact ⟨fun ⟨n, scanned, ends, same⟩ => ⟨scanned, ⟨n, ends⟩, same⟩,
    fun ⟨scanned, ⟨n, ends⟩, same⟩ => ⟨n, scanned, ends, same⟩⟩

/-- Where a dash stands behind nothing but digits, the function never returns. -/
theorem not_gives (dash : DashFirst name) : ¬ Gives stat tp name result := by
  rw [gives_iff]
  rintro ⟨scanned, ends, -⟩
  exact not_returns scanTurn_of_dashFirst dash ends

/-- For every other name it returns -2. -/
theorem gives_of_not_dashFirst (other : ¬ DashFirst name) : Gives stat tp name result ↔ result = -2 := by
  obtain ⟨scanned, ends, counted⟩ := @returns_of_not_dashFirst name 0 0 other
  have refused : afterScan stat tp name scanned = -2 := by
    cases scanned with
    | none => rfl
    | some counts =>
      have none_counted := counted counts.1 counts.2 rfl
      exact if_pos (.inr (by omega))
  rw [gives_iff]
  constructor
  · rintro ⟨other, also, rfl⟩
    rw [← ends.unique also]
    exact refused
  · rintro rfl
    exact ⟨scanned, ends, refused⟩

/-- The date of a name begins with its first dash. -/
theorem NamesDate.dashFirst (date : NamesDate tp name) : DashFirst name := by
  obtain ⟨year, mon, day, digits, -, -, rfl, -⟩ := date
  rw [DashFirst, List.dropWhile_append_of_pos digits.2, List.dropWhile_cons_of_neg (by decide)]
  rfl

end Function

/-- The first of January 2026, while it is 2026. -/
theorem new_year_not_meets :
    ¬ Meets (fun _ => ⟨0, 0x41ed⟩) ⟨126, 5, 15⟩ "2026-01-01".toList := by
  rintro ⟨⟨result, gives⟩, -⟩
  exact not_gives (by decide) gives

/-- The function does what it is for exactly on the names that have no dash behind nothing but digits. -/
theorem check_filename_meets (stat : CString → StatResult) (tp : Tm) (name : CString) :
    Meets stat tp name ↔ ¬ DashFirst name := by
  constructor
  · rintro ⟨⟨result, gives⟩, -⟩ dash
    exact not_gives dash gives
  · intro other
    refine ⟨⟨-2, (gives_of_not_dashFirst other).mpr rfl⟩, fun _ => iff_of_false ?_ ?_⟩
    · rw [gives_of_not_dashFirst other]
      decide
    · exact fun date => other date.dashFirst

end Vpu.Soundness.DateNames
