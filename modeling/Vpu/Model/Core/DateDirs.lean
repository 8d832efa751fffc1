import Vpu.Model.Core.ConfReload
import Vpu.Model.Core.VoiceName
import Vpu.ToMathlib.Gregorian
import Vpu.ToMathlib.Paths

/-! # Directories for today and tomorrow

Voice files go to `<root>/<class>/<date>/<e1>/<ts>`, and these directories have to exist before. They
are made for two dates when the program starts and when the storage roots are reloaded; after
that `cycle_thread` makes those of the next date whenever it sees a new day, and removes those of a
date long ago. `mkdir`, the shell behind `system` and the offset from UTC are parameters. So is `resolve`:
the file system knows each directory under one name, and `resolve` turns every name into that one, as
`/a/` and `//a` into `/a`.
-/

namespace Vpu.Model.Core

open Gregorian Paths

/-- `localtime_r` where the offset from UTC never changes. -/
def localtime (gmtoff tim : ℤ) : Tm :=
  let date := Date.ofDay ((tim + gmtoff) / 86400)
  ⟨date.year - 1900, date.month - 1, date.day⟩

/-- The directories that exist. -/
abbrev DirSet := CString → Bool

def DirSet.add (dirs : DirSet) (name : CString) : DirSet := Function.update dirs name true

/-- `snprintf` into 256 bytes. -/
def fit (name : CString) : CString := name.take 255

/-- `"%s/%s"` -/
def subDir (dir name : CString) : CString := child '/' dir name

def normalDir : CString := "normal".toList

def caseDir : CString := "case".toList

/-- `"%04d-%02d-%02d"` -/
def dateName (year month day : ℤ) : CString :=
  child '-' (child '-' (fmtInt 4 year) (fmtInt 2 month)) (fmtInt 2 day)

/-- `"%02d"` for the number of an E1 or a timeslot. -/
def lineName (i : ℕ) : CString := fmtInt 2 i

/-- The directory of a date and all those below it, in the order in which they are made; `cut` is
what writing a name does to it. -/
def treeDirs (cut : CString → CString) (dateDir : CString) : List CString :=
  dateDir :: (List.range 64).flatMap fun i =>
    let e1Dir := cut (subDir dateDir (lineName i))
    e1Dir :: (List.range 32).map fun j => cut (subDir e1Dir (lineName j))

/-- `mkdir` for one name after the other, up to the first that fails. -/
def mkdirAll (resolve : CString → CString) (mkdir : CString → Bool) : List CString → DirSet → Bool × DirSet
  | [], dirs => (true, dirs)
  | name :: names, dirs =>
    if mkdir name = true then mkdirAll resolve mkdir names (dirs.add (resolve name)) else (false, dirs)

section FileSystem

variable (resolve : CString → CString) (mkdir : CString → Bool) (system : CString → DirSet → DirSet)

/-- `create_file_dirs`: where the first directory exists, nothing is made. -/
def createFileDirs (root : CString) (year month day : ℤ) (dirs : DirSet) :
    ℤ × DirSet :=
  let dateDir (kind : CString) := fit (subDir (subDir root kind) (dateName year month day))
  if dirs (resolve (dateDir normalDir)) = true then (-2, dirs)
  else
    match mkdirAll resolve mkdir (treeDirs fit (dateDir normalDir)) dirs with
    | (false, dirs) => (-1, dirs)
    | (true, dirs) =>
      match mkdirAll resolve mkdir (treeDirs fit (dateDir caseDir)) dirs with
      | (false, dirs) => (-1, dirs)
      | (true, dirs) => (0, dirs)

/-- `create_file_dirs(root, tm_year + 1900, tm_mon + 1, tm_mday)` -/
def createForDay (root : CString) (tm : Tm) (dirs : DirSet) : DirSet :=
  (createFileDirs resolve mkdir root (tm.tmYear + 1900) (tm.tmMon + 1) tm.tmMday dirs).2

/-- The names in a table. -/
def FileDirsInfo.roots (table : FileDirsInfo) : List CString :=
  (List.range table.num.toNat).map fun i => (table.dirs i).dirName

def createAllDirs (table : FileDirsInfo) (tm : Tm) (dirs : DirSet) : DirSet :=
  table.roots.foldl (fun dirs root => createForDay resolve mkdir root tm dirs) dirs

/-- The directory of a class, if it does not exist. The program ends where it cannot be made. -/
def makeClassDir (root kind : CString) (dirs : DirSet) : Option DirSet :=
  if dirs (resolve (fit (subDir root kind))) = true then some dirs
  else if mkdir (fit (subDir root kind)) = true then some (dirs.add (resolve (fit (subDir root kind))))
  else none

/-- One turn of the loops over the roots, with the two dates. -/
def initRoot (root : CString) (today nextday : Tm) (dirs : DirSet) : Option DirSet := do
  let dirs ← makeClassDir resolve mkdir root normalDir dirs
  let dirs ← makeClassDir resolve mkdir root caseDir dirs
  return createForDay resolve mkdir root nextday (createForDay resolve mkdir root today dirs)

/-- `init_file_dirs`, with the reading of the clock for each root. -/
def initFileDirs (gmtoff : ℤ) (table : FileDirsInfo) (now : ℕ → ℤ) (dirs : DirSet) : Option DirSet :=
  if table.num = 0 then none
  else
    (List.range table.num.toNat).foldlM (fun dirs i =>
      initRoot resolve mkdir (table.dirs i).dirName (localtime gmtoff (now i))
        (localtime gmtoff (now i + 24 * 60 * 60)) dirs) dirs

/-- `init_reload_file_dirs` for a table that has roots: tomorrow is `tm_mday + 1` of this month. -/
def initReloadFileDirs (gmtoff : ℤ) (table : FileDirsInfo) (now : ℕ → ℤ) (dirs : DirSet) : Option DirSet :=
  (List.range table.num.toNat).foldlM (fun dirs i =>
    let tms := localtime gmtoff (now i)
    initRoot resolve mkdir (table.dirs i).dirName tms { tms with tmMday := tms.tmMday + 1 } dirs) dirs

/-- `storage_time` as the readers of `vpu.yaml` leave it. -/
abbrev StorageTime := {days : BitVec 32 // 0 < days ∧ days ≤ 1024}

/-- A table as `reload_fill_file_dirs` leaves it. -/
abbrev DirsTable := {table : FileDirsInfo // table.num.toNat ≤ maxDirsNum}

/-- What of the program's state decides about directories. The last two fields are the clock as
`cycle_thread` and as anyone has read it last. -/
structure DirsState where
  fileDirs : FileDirsInfo
  rFileDirs : FileDirsInfo
  vpuDirReload : Bool
  /-- `last_day` of `cycle_thread`. -/
  lastDay : ℤ
  dirs : DirSet
  tim : ℤ
  now : ℤ

inductive DirsEvent where
  /-- A pass of `cycle_thread`; `free` are the roots with enough space left. -/
  | pass (tim : ℤ) (storageTime : StorageTime) (free : ℕ → Bool)
  /-- `reload_file_dirs` with the table it has filled and its readings of the clock, to its end at the
  time `done`. -/
  | reload (table : DirsTable) (now : ℕ → ℤ) (done : ℤ)
  /-- Worker 0 sees `vpu_dir_reload`. -/
  | takeOver (time : ℤ)

/-- `rm -rf` of the normal directory of a date, if it exists. -/
def removeForDay (root : CString) (tm : Tm) (dirs : DirSet) : DirSet :=
  let dateDir := fit (subDir (subDir root normalDir) (dateName (tm.tmYear + 1900) (tm.tmMon + 1) tm.tmMday))
  if dirs (resolve dateDir) = true then system (fit ("rm -rf ".toList ++ dateDir)) dirs else dirs

/-- The loop over the free space of the roots. -/
def FileDirsInfo.setWriteFlags (table : FileDirsInfo) (free : ℕ → Bool) : FileDirsInfo :=
  { table with dirs := fun i =>
      if i < table.num.toNat then { table.dirs i with writeFlag := if free i = true then 1 else 0 }
      else table.dirs i }

/-- A pass of `cycle_thread`. `localtime_r` never fails. -/
def cycleDirs (gmtoff tim : ℤ) (storageTime : StorageTime) (free : ℕ → Bool) (s : DirsState) : DirsState :=
  let curTm := localtime gmtoff tim
  let dirs :=
    if curTm.tmMday ≠ s.lastDay then
      let dirs := createAllDirs resolve mkdir s.fileDirs (localtime gmtoff (tim + 24 * 60 * 60)) s.dirs
      let timeBefore := tim - (storageTime.val * 24 * 60 * 60).toNat
      s.fileDirs.roots.foldl (fun dirs root => removeForDay resolve system root (localtime gmtoff timeBefore) dirs) dirs
    else s.dirs
  { s with fileDirs := s.fileDirs.setWriteFlags free, lastDay := curTm.tmMday, dirs, tim, now := tim }

/-- `reload_file_dirs`: a table that differs and has roots is prepared for worker 0. -/
def reloadDirs (gmtoff : ℤ) (table : FileDirsInfo) (now : ℕ → ℤ) (done : ℤ) (s : DirsState) : Option DirsState :=
  if s.fileDirs.differs table = false ∨ table.num = 0 then some { s with rFileDirs := table, now := done }
  else (initReloadFileDirs resolve mkdir gmtoff table now s.dirs).map fun dirs =>
    { s with rFileDirs := table, vpuDirReload := true, dirs, now := done }

/-- What worker 0 does about the table at the top of its loop. -/
def takeOverDirs (time : ℤ) (s : DirsState) : DirsState :=
  if s.vpuDirReload = true then { s with fileDirs := s.rFileDirs, vpuDirReload := false, now := time }
  else { s with now := time }

def dirsStep (gmtoff : ℤ) (s : DirsState) : DirsEvent → Option DirsState
  | .pass tim storageTime free => some (cycleDirs resolve mkdir system gmtoff tim storageTime free s)
  | .reload table now done => reloadDirs resolve mkdir gmtoff table now done s
  | .takeOver time => some (takeOverDirs time s)

/-- The start of the program up to `cycle_thread`'s loop, that it reaches at the time `start`. -/
def dirsStart (gmtoff : ℤ) (table : FileDirsInfo) (now : ℕ → ℤ) (start : ℤ) (dirs : DirSet) : Option DirsState :=
  (initFileDirs resolve mkdir gmtoff table now dirs).map fun dirs =>
    ⟨table, .empty, false, (localtime gmtoff start).tmMday, dirs, start, start⟩

/-- The program as a machine; `none` is its end by `exit`. -/
def dirsMachine (gmtoff : ℤ) : EventMachine (Option DirsState) DirsEvent Unit :=
  ⟨fun s e => (s.bind (dirsStep resolve mkdir system gmtoff · e), ())⟩

end FileSystem

end Vpu.Model.Core
