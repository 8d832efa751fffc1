import Vpu.Machine.Run
import Vpu.Model.Core.DateDirs

/-! # New storage roots while worker 0 polls

`reload_file_dirs` runs in the thread that takes commands. It fills `r_file_dirs`, raises `vpu_dir_reload`
and makes directories; worker 0 polls the flag and copies the table. Here each assignment and each
`mkdir` of the two threads is a step of its own, and every `mkdir` succeeds. The first thread keeps a
list of what it still has to do.
-/

namespace Vpu.Model.Core

open Gregorian

/-- What `reload_file_dirs` and the functions it calls do, one step at a time. -/
inductive MaOp where
  /-- `memset(&r_file_dirs, 0, …)` -/
  | memset
  /-- A turn of the loop over the nodes, up to the assignments. -/
  | child (child : ConfNode)
  | dirName (num : BitVec 32) (dir : CString) (disk : BitVec 8)
  | diskNum (num : BitVec 32) (disk : BitVec 8)
  | num (num : BitVec 32)
  | writeFlag (num : BitVec 32)
  /-- `memcmp`, and the test of `num` in `init_reload_file_dirs`. -/
  | memcmp
  | raise
  /-- `stat` for the directory of a class, and `mkdir` if it does not exist. -/
  | classDir (root kind : CString)
  | gettimeofday (root : CString)
  /-- `create_file_dirs`, up to its first `mkdir`. -/
  | createFileDirs (root : CString) (date : Date)
  /-- The names that it still has to make. -/
  | mkdir (root : CString) (date : Date) (names : List CString)

/-- Where worker 0 is in its loop. -/
inductive Worker0Pc where
  | poll
  | memcpy
  | clear
deriving DecidableEq, Repr

/-- What the two threads share, and where they are. The last three fields only note something: that
worker 0 has replaced its table, the directories before the latest command, and the dates that this
command has made to the end. -/
structure DirReloadState where
  fileDirs : FileDirsInfo
  rFileDirs : FileDirsInfo
  vpuDirReload : Bool
  dirs : DirSet
  now : ℤ
  ma : List MaOp
  worker : Worker0Pc
  replaced : Bool
  before : DirSet
  made : List (CString × Date)

inductive DirReloadEvent where
  /-- A command whose file gives this list of roots; a thread at work on another one does not take it. -/
  | reload (roots : List ConfNode)
  | ma
  | worker
  /-- Time passes. -/
  | tick (now : ℤ)

/-- All names that `create_file_dirs` makes. -/
def dateDirs (root : CString) (date : Date) : List CString :=
  let dateDir (kind : CString) := fit (subDir (subDir root kind) (dateName date.year date.month date.day))
  treeDirs fit (dateDir normalDir) ++ treeDirs fit (dateDir caseDir)

/-- One turn of the loop over the roots. -/
def turnOps (root : CString) : List MaOp := [.classDir root normalDir, .classDir root caseDir, .gettimeofday root]

/-- The loop over the nodes of the tree, up to the assignments of `reload_fill_file_dirs`. `none` is the end
of the program: by a node without value, or behind the end of the table. -/
def childOps (s : DirReloadState) (child : ConfNode) : Option (List MaOp) := do
  let value ← child.val
  if value = "dir".toList then
    let (dir, disk) ← child.head.foldlM dirParam (none, 0)
    match dir with
    | none => some []
    | some dir =>
      if maxDirsNum < s.rFileDirs.num.toNat then some []
      else if s.dirs dir = false then some []
      else if 256 ≤ dir.length then some []
      else if s.rFileDirs.num.toNat = maxDirsNum then none
      else some [.dirName s.rFileDirs.num dir disk]
  else some []

/-- A step of the first thread: what it does, and what it has to do then. -/
def maStep (gmtoff : ℤ) (s : DirReloadState) (ops : List MaOp) : MaOp → Option DirReloadState
  | .memset => some { s with rFileDirs := .empty, ma := ops }
  | .child child => (childOps s child).map fun first => { s with ma := first ++ ops }
  | .dirName num dir disk =>
    let node := { s.rFileDirs.dirs num.toNat with dirName := dir }
    some { s with
      rFileDirs := { s.rFileDirs with dirs := Function.update s.rFileDirs.dirs num.toNat node }
      ma := .diskNum num disk :: ops }
  | .diskNum num disk =>
    let node := { s.rFileDirs.dirs num.toNat with diskNum := disk }
    some { s with
      rFileDirs := { s.rFileDirs with dirs := Function.update s.rFileDirs.dirs num.toNat node }
      ma := .num num :: ops }
  | .num num => some { s with rFileDirs := { s.rFileDirs with num := num + 1 }, ma := .writeFlag num :: ops }
  | .writeFlag num =>
    let node := { s.rFileDirs.dirs num.toNat with writeFlag := 1 }
    some { s with
      rFileDirs := { s.rFileDirs with dirs := Function.update s.rFileDirs.dirs num.toNat node }
      ma := ops }
  | .memcmp =>
    if s.fileDirs.differs s.rFileDirs = false ∨ s.rFileDirs.num = 0 then some { s with ma := ops }
    else some { s with ma := .raise :: s.rFileDirs.roots.flatMap turnOps ++ ops }
  | .raise => some { s with vpuDirReload := true, ma := ops }
  | .classDir root kind =>
    if s.dirs (fit (subDir root kind)) = true then some { s with ma := ops }
    else some { s with dirs := s.dirs.add (fit (subDir root kind)), ma := ops }
  | .gettimeofday root =>
    let tms := localtime gmtoff s.now
    let today : Date := ⟨tms.tmYear + 1900, tms.tmMon + 1, tms.tmMday⟩
    some { s with ma := .createFileDirs root today :: .createFileDirs root { today with day := today.day + 1 } :: ops }
  | .createFileDirs root date =>
    if s.dirs (fit (subDir (subDir root normalDir) (dateName date.year date.month date.day))) = true then
      some { s with ma := ops }
    else some { s with ma := .mkdir root date (dateDirs root date) :: ops }
  | .mkdir root date [] => some { s with ma := ops, made := (root, date) :: s.made }
  | .mkdir root date [name] =>
    some { s with dirs := s.dirs.add name, ma := ops, made := (root, date) :: s.made }
  | .mkdir root date (name :: names) =>
    some { s with dirs := s.dirs.add name, ma := .mkdir root date names :: ops }

/-- A step of worker 0 at the top of its loop. -/
def worker0Step (s : DirReloadState) : DirReloadState :=
  match s.worker with
  | .poll => if s.vpuDirReload = true then { s with worker := .memcpy } else s
  | .memcpy => { s with fileDirs := s.rFileDirs, replaced := true, worker := .clear }
  | .clear => { s with vpuDirReload := false, worker := .poll }

def dirReloadStep (gmtoff : ℤ) (s : DirReloadState) : DirReloadEvent → Option DirReloadState
  | .reload roots =>
    match s.ma with
    | [] => some { s with ma := .memset :: roots.map .child ++ [.memcmp], before := s.dirs, made := [] }
    | _ :: _ => some s
  | .ma =>
    match s.ma with
    | [] => some s
    | op :: ops => maStep gmtoff s ops op
  | .worker => some (worker0Step s)
  | .tick now => some { s with now }

/-- Before the first command. -/
def DirReloadState.start (table : FileDirsInfo) (dirs : DirSet) (now : ℤ) : DirReloadState :=
  ⟨table, .empty, false, dirs, now, [], .poll, false, dirs, []⟩

def dirReloadMachine (gmtoff : ℤ) : EventMachine (Option DirReloadState) DirReloadEvent Unit :=
  ⟨fun s e => (s.bind (dirReloadStep gmtoff · e), ())⟩

end Vpu.Model.Core
