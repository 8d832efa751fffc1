import Vpu.Model.Core.StorageTime
import Vpu.Model.Core.Strings
import Vpu.ToMathlib.Loops

/-! # Which directories are dates

`check_filename` counts the digits and the dashes of a name, wants 8 and 2 of them and a directory, and reads
the year, the month and the day at their places. `stat` is a parameter: it returns a number and leaves a mode,
also where it fails.
-/

namespace Vpu.Model.Core

open Loops

structure StatResult where
  result : ℤ
  stMode : BitVec 32

/-- `S_IFMT` and `S_IFDIR` -/
def sIfmt : BitVec 32 := 0xf000

def sIfdir : BitVec 32 := 0x4000

/-- The scan of a name: what is left of it, and how many digits and dashes there were. -/
structure NameScan where
  p : CString
  count : ℕ
  num : ℕ

/-- One turn of the scan, which ends with the counts, or with -2. -/
def scanTurn (s : NameScan) : NameScan ⊕ Option (ℕ × ℕ) :=
  match s.p with
  | [] => .inr (some (s.count, s.num))
  | c :: p =>
    -- `continue` comes before `p ++`
    if c = '-' then .inl { s with num := s.num + 1 }
    else if c < '0' ∨ c > '9' then .inr none
    else .inl { s with p := p, count := s.count + 1 }

/-- The switch over the month returns -2. -/
def dayRefused (year mon day : ℤ) : Bool :=
  if mon ∈ [1, 3, 5, 7, 8, 10, 12] then day < 1 || day > 31
  else if mon = 2 then
    if (year % 4 = 0 ∧ year % 100 ≠ 0) ∨ year % 400 = 0 then day > 29 || day < 1
    else day > 28 || day < 1
  else if mon ∈ [4, 6, 9, 11] then day < 1 || day > 30
  else true

/-- What `memcpy` puts into the cleared `buff`, as a number. -/
def nameField (name : CString) (off n : ℕ) : ℤ := (atoi ((name.drop off).take n)).toInt

/-- `check_filename` behind the scan. -/
def checkCounted (stat : CString → StatResult) (tp : Tm) (name : CString) (count num : ℕ) : ℤ :=
  if count ≠ 8 ∨ num ≠ 2 then -2
  else if (stat name).result ≠ 0 ∧ (stat name).stMode &&& sIfmt ≠ sIfdir then -2
  else
    let year := nameField name 0 4
    let mon := nameField name 5 2
    let day := nameField name 8 2
    if year < tp.tmYear + 1899 ∨ year > tp.tmYear + 1901 then -2
    else if mon < 1 ∨ mon > 12 then -2
    else if dayRefused year mon day = true then -2
    else 0

def afterScan (stat : CString → StatResult) (tp : Tm) (name : CString) : Option (ℕ × ℕ) → ℤ
  | none => -2
  | some (count, num) => checkCounted stat tp name count num

/-- `check_filename`, in at most this many turns of its loop. -/
def checkFilename (stat : CString → StatResult) (tp : Tm) (turns : ℕ) : Option CString → Option ℤ
  | none => some (-1)
  | some name => (whileLoop scanTurn turns ⟨name, 0, 0⟩).map (afterScan stat tp name)

end Vpu.Model.Core
