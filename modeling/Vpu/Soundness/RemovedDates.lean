import Vpu.Model.Core.StorageTime
import Vpu.Soundness.TwoDates

/-! # The date that a pass removes

A storage time of 1 to 1024 days gives a date that is 1 to 1024 days ago, and every pass outside of reloads
finds such a time. A pass between the two writes of a reload may find any number, and its product with the
seconds of a day is cut to 32 bits: 0 gives the current date, and 49711 days give one that is not a day ago.
-/

namespace Vpu.Soundness.RemovedDates

open Vpu.Model.Core Gregorian TwoDates EventMachine

def dateOf (tm : Tm) : Date := ⟨tm.tmYear + 1900, tm.tmMon + 1, tm.tmMday⟩

/-- One date is this number of days before another. -/
def DaysBefore (n : ℤ) (before date : Date) : Prop := ∃ d, date = Date.ofDay d ∧ before = Date.ofDay (d - n)

/-- What a pass removes is 1 to 1024 days old. -/
def Stored (o : Option RemovedDate) : Prop :=
  ∀ r, o = some r → ∃ n, 1 ≤ n ∧ n ≤ 1024 ∧ DaysBefore n (dateOf r.tmpBefore) (dateOf r.curTm)

/-- The seconds since midnight. -/
def secondOfDay (gmtoff : ℤ → ℤ) (tim : ℤ) : ℤ := (tim + gmtoff tim) % 86400

/-- What a pass goes back by the local clock. -/
def span (gmtoff : ℤ → ℤ) (storageTime : BitVec 32) (tim : ℤ) : ℤ :=
  (storageTime * 24 * 60 * 60).toNat + (gmtoff tim - gmtoff (timeBefore storageTime tim))

/-- A pass on a new day goes back by more than the time since midnight, and by at most 1024 days more. -/
def PassMeets (gmtoff : ℤ → ℤ) (s : StorageState) : StorageEvent → Prop
  | .pass tim => (localtime (gmtoff tim) tim).tmMday ≠ s.lastDay →
      secondOfDay gmtoff tim < span gmtoff s.storageTime tim ∧
        span gmtoff s.storageTime tim ≤ secondOfDay gmtoff tim + 1024 * 86400
  | _ => True

variable {gmtoff : ℤ → ℤ} {s : StorageState} {tim : ℤ}

theorem dateOf_localtime (offset tim : ℤ) : dateOf (localtime offset tim) = Date.ofDay (day offset tim) :=
  (dateAt_eq offset tim).symm

theorem daysBefore_ofDay {n d d' : ℤ} : DaysBefore n (Date.ofDay d') (Date.ofDay d) ↔ d' = d - n := by
  constructor
  · rintro ⟨e, same, before⟩
    rw [Date.ofDay_injective same]
    exact Date.ofDay_injective before
  · rintro rfl
    exact ⟨d, rfl, rfl⟩

/-- The date of a span back. -/
theorem day_timeBefore (gmtoff : ℤ → ℤ) (storageTime : BitVec 32) (tim : ℤ) :
    day (gmtoff (timeBefore storageTime tim)) (timeBefore storageTime tim) =
      (tim + gmtoff tim - span gmtoff storageTime tim) / 86400 := by
  rw [day, span]
  congr 1
  rw [timeBefore]
  omega

theorem stored_iff (gmtoff : ℤ → ℤ) (s : StorageState) (e : StorageEvent) :
    Stored ((storageMachine gmtoff).emit s e) ↔ PassMeets gmtoff s e := by
  cases e with
  | reload value =>
    refine iff_of_true (fun r emitted => ?_) trivial
    simp only [emit, storageMachine, StorageState.step] at emitted
    split_ifs at emitted
  | limit =>
    refine iff_of_true (fun r emitted => ?_) trivial
    simp only [emit, storageMachine, StorageState.step] at emitted
    split_ifs at emitted
  | pass tim =>
    rw [PassMeets, Stored]
    simp only [emit, storageMachine, StorageState.step]
    split_ifs with changed
    · simp only [Option.some_inj, forall_eq', dateOf_localtime, daysBefore_ofDay, day_timeBefore]
      rw [secondOfDay, day]
      constructor
      · rintro days -
        obtain ⟨n, low, high, same⟩ := days
        omega
      · intro meets
        obtain ⟨low, high⟩ := meets changed
        refine ⟨(tim + gmtoff tim) / 86400 - (tim + gmtoff tim - span gmtoff s.storageTime tim) / 86400, ?_, ?_, ?_⟩
        all_goals omega
    · exact iff_of_true (fun r none => absurd none (by simp)) fun new => absurd new changed

/-! ## Passes that find no reload between its writes -/

/-- Outside a reload the storage time is within the limits. -/
def Limited (s : StorageState) : Prop := s.reloading = false → 0 < s.storageTime ∧ s.storageTime ≤ 1024

theorem inLimits_limited (value : BitVec 32) : 0 < inLimits 90 value ∧ inLimits 90 value ≤ 1024 := by
  rw [inLimits]
  split_ifs with outside
  · decide
  · obtain ⟨some, few⟩ := not_or.mp outside
    exact ⟨BitVec.lt_def.mpr (Nat.pos_of_ne_zero fun zero => some (BitVec.eq_of_toNat_eq zero)), BitVec.not_lt.mp few⟩

theorem Limited.next (limited : Limited s) (e : StorageEvent) : Limited ((storageMachine gmtoff).next s e) := by
  cases e with
  | reload value =>
    show Limited (s.step gmtoff (.reload value)).1
    rw [StorageState.step]
    split_ifs
    · exact limited
    · exact fun between => Bool.noConfusion between
  | limit =>
    show Limited (s.step gmtoff .limit).1
    rw [StorageState.step]
    split_ifs
    · exact fun _ => inLimits_limited s.storageTime
    · exact limited
  | pass tim => exact limited

/-- While the offset from UTC stays, a storage time within the limits meets the condition. -/
theorem meets_of_limited {offset : ℤ} (same : ∀ tim, gmtoff tim = offset) (some : 0 < s.storageTime)
    (most : s.storageTime ≤ 1024) (e : StorageEvent) : PassMeets gmtoff s e := by
  cases e with
  | reload | limit => trivial
  | pass tim =>
    intro _
    have low : 0 < s.storageTime.toNat := BitVec.lt_def.mp some
    have small : s.storageTime.toNat ≤ 1024 := BitVec.le_def.mp most
    have exact : (s.storageTime * 24 * 60 * 60).toNat = s.storageTime.toNat * 86400 := toNat_seconds small
    rw [span, same, same, exact, secondOfDay]
    omega

/-- Passes that come outside of reloads meet the condition. -/
theorem meets_of_apart {offset : ℤ} {es : List StorageEvent} (same : ∀ tim, gmtoff tim = offset) (limited : Limited s)
    (apart : (storageMachine gmtoff).Guarded (fun s e => (∃ tim, e = .pass tim) → s.reloading = false) s es) :
    (storageMachine gmtoff).Guarded (PassMeets gmtoff) s es := by
  have limits : (storageMachine gmtoff).Throughout Limited s es :=
    throughout_invariant Limited limited fun _ e kept => kept.next e
  have guarded : (storageMachine gmtoff).Guarded (fun s _ => Limited s) s es := limits.guarded fun _ _ kept => kept
  apply (guarded.and apart).mono
  rintro s e ⟨limited, apart⟩
  cases e with
  | reload | limit => trivial
  | pass tim =>
    obtain ⟨some, most⟩ := limited (apart ⟨tim, rfl⟩)
    exact meets_of_limited same some most _

/-! ## The dates of a run -/

/-- For all texts of the setting, all times and every interleaving of the two writes of a reload with passes,
each date that is removed is 1 to 1024 days before the date of its pass exactly when each pass on a new
day goes back by more than the time since midnight, and by at most 1024 days more. -/
theorem removed_dates_iff (gmtoff : ℤ → ℤ) (s : StorageState) (es : List StorageEvent) :
    (∀ o ∈ (storageMachine gmtoff).trace s es, Stored o) ↔ (storageMachine gmtoff).Guarded (PassMeets gmtoff) s es :=
  trace_good_iff_guarded (fun _ => True) trivial
    (guarded_of_forall_mem fun _ _ _ => trivial : (storageMachine gmtoff).Guarded (fun _ _ => True) s es)
    (fun _ _ _ _ => trivial) fun s e _ _ => stored_iff gmtoff s e

/-- Passes that come outside of reloads, from settings within the limits, remove dates that are 1 to 1024 days
before theirs. -/
theorem apart_stored {offset : ℤ} {es : List StorageEvent} (same : ∀ tim, gmtoff tim = offset) (limited : Limited s)
    (apart : (storageMachine gmtoff).Guarded (fun s e => (∃ tim, e = .pass tim) → s.reloading = false) s es) :
    ∀ o ∈ (storageMachine gmtoff).trace s es, Stored o :=
  (meets_of_apart same limited apart).trace fun s e => (stored_iff gmtoff s e).mpr

/-- A pass right behind the first write of a reload with the text "0" removes the current date. -/
theorem today_removed : ¬ ∀ o ∈ (storageMachine fun _ => 0).trace ⟨90, false, 1⟩ [.reload (some ['0']), .pass 86410],
    Stored o := by
  intro stored
  have last := (stored_iff (fun _ => 0) ⟨0, true, 1⟩ (.pass 86410)).mp
    (stored _ (List.mem_cons_of_mem _ (List.mem_cons_self ..)))
  obtain ⟨beyond, -⟩ := last (by decide +kernel)
  exact absurd beyond (by decide)

/-! ## The sequential functions -/

/-- The two writes of a reload, one behind the other. -/
theorem run_reload {root : ConfNode} {conf conf' : Conf} (reloaded : reloadStorageTime root conf = some conf')
    (gmtoff : ℤ → ℤ) (lastDay : ℤ) : ∃ value,
      (storageMachine gmtoff).run ⟨conf.storageTime, false, lastDay⟩ [.reload value, .limit] =
        ⟨conf'.storageTime, false, lastDay⟩ := by
  rw [reloadStorageTime, getStorageTime, withValue] at reloaded
  split at reloaded
  · cases reloaded
    exact ⟨none, rfl⟩
  · contradiction
  · rename_i value _
    cases reloaded
    exact ⟨some value, rfl⟩

/-- What a whole pass removes is the date that it emits here. -/
theorem cycleDirs_removes (resolve : CString → CString) (mkdir : CString → Bool) (system : CString → DirSet → DirSet)
    {offset : ℤ} {days : StorageTime} {d : DirsState} {r : RemovedDate}
    (emitted : (storageMachine fun _ => offset).emit ⟨days.val, false, d.lastDay⟩ (.pass tim) = some r) (free : ℕ → Bool) :
    (cycleDirs resolve mkdir system offset tim days free d).dirs =
      d.fileDirs.roots.foldl (fun dirs root => removeForDay resolve system root r.tmpBefore dirs)
        (createAllDirs resolve mkdir d.fileDirs (localtime offset (tim + 24 * 60 * 60)) d.dirs) := by
  simp only [emit, storageMachine, StorageState.step] at emitted
  split_ifs at emitted with changed
  cases emitted
  exact if_pos changed

end Vpu.Soundness.RemovedDates
