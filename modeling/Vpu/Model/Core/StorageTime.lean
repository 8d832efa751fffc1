import Vpu.Model.Core.DateDirs

/-! # The two writes of the storage time

`reload_storage_time` writes what `atoi` makes of the setting to `storage_time`, and only then looks
whether that is within the limits. The thread of `cycle_thread` may read it in between. The offset from
UTC may change in the course of time.
-/

namespace Vpu.Model.Core

/-- `tim - storage_time * 24 * 60 * 60`: the product has 32 bits, the difference 64. -/
def timeBefore (storageTime : BitVec 32) (tim : ℤ) : ℤ := tim - (storageTime * 24 * 60 * 60).toNat

structure StorageState where
  storageTime : BitVec 32
  /-- `reload_storage_time` is between its two writes. -/
  reloading : Bool
  /-- `last_day` of `cycle_thread`. -/
  lastDay : ℤ

inductive StorageEvent where
  /-- `reload_storage_time` up to the first write, with the text of the setting if the file has one. -/
  | reload (value : Option CString)
  /-- The rest of `reload_storage_time`. -/
  | limit
  /-- A pass of `cycle_thread`. -/
  | pass (tim : ℤ)

/-- `cur_tm` and `tmp_before` in a pass that sees a new day. -/
structure RemovedDate where
  curTm : Tm
  tmpBefore : Tm

def StorageState.step (gmtoff : ℤ → ℤ) (s : StorageState) : StorageEvent → StorageState × Option RemovedDate
  | .reload value =>
    if s.reloading = true then (s, none)
    else ({ s with storageTime := (value.map atoi).getD s.storageTime, reloading := true }, none)
  | .limit =>
    if s.reloading = true then ({ s with storageTime := inLimits 90 s.storageTime, reloading := false }, none)
    else (s, none)
  | .pass tim =>
    let curTm := localtime (gmtoff tim) tim
    let before := timeBefore s.storageTime tim
    ({ s with lastDay := curTm.tmMday },
      if curTm.tmMday ≠ s.lastDay then some ⟨curTm, localtime (gmtoff before) before⟩ else none)

/-- The thread that reloads and `cycle_thread`; a pass emits the date that it removes. -/
def storageMachine (gmtoff : ℤ → ℤ) : EventMachine StorageState StorageEvent (Option RemovedDate) :=
  ⟨fun s e => s.step gmtoff e⟩

end Vpu.Model.Core
