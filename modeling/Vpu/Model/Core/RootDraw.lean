import Vpu.Machine.Act
import Vpu.Model.Core.VoiceName

/-! # Workers that draw storage roots

`get_root_dir` as the workers run it side by side. Each access to `file_dir_no` is one atomic step:
the first fetch-and-add, the reset of a counter that has left the table, and the second
fetch-and-add. What follows, one turn of the search at a time, works on the worker's own variables and
on a table that does not change. `getRootDir` is the same function for a single caller.
-/

namespace Vpu.Model.Core

/-- Where a worker is in `get_root_dir`, with `dir_no_cur` and `dir_no`. A root that was found is
named by its index. -/
inductive RootPc where
  | outside
  | draw
  | reset
  | redraw
  | first (dirNo : BitVec 32)
  | search (dirNoCur dirNo : BitVec 32)
  | done (root : Option (BitVec 32))
deriving DecidableEq, Repr

/-- A worker with `file->cdr.path`. -/
structure RootWorker where
  pc : RootPc
  path : BitVec 16
deriving DecidableEq, Repr

/-- `write_flag == 1` -/
def FileDirsInfo.Writable (table : FileDirsInfo) (i : ℕ) : Prop := (table.dirs i).writeFlag = 1

instance (table : FileDirsInfo) : DecidablePred table.Writable := fun _ => inferInstanceAs (Decidable (_ = _))

/-- The return with what was found; `cdr.path` is the disk number of the root. -/
def RootWorker.finish (table : FileDirsInfo) (worker : RootWorker) : Option (BitVec 32) → RootWorker
  | none => { worker with pc := .done none }
  | some no => ⟨.done (some no), (table.dirs no.toNat).diskNum.setWidth 16⟩

/-- One turn behind the counter steps. -/
def RootWorker.turn (table : FileDirsInfo) (worker : RootWorker) : RootWorker :=
  match worker.pc with
  | .first no =>
    if table.Writable no.toNat then worker.finish table (some no) else { worker with pc := .search no no }
  | .search cur no =>
    let no := if table.num ≤ no + 1 then 0 else no + 1
    if no = cur then worker.finish table none
    else if table.Writable no.toNat then worker.finish table (some no)
    else { worker with pc := .search cur no }
  | _ => worker

/-- `file_dir_no` and the workers. -/
structure RootSystem (θ : Type) where
  fileDirNo : BitVec 32
  worker : θ → RootWorker

inductive RootEvent (θ : Type) where
  /-- The worker calls `get_root_dir` for a call whose record has this path. -/
  | call (w : θ) (path : BitVec 16)
  | step (w : θ)

inductive RootEffect where
  | drawn
  | resetTo0
  | returned (root : Option (BitVec 32))
deriving DecidableEq, Repr

/-- The worker is not inside `get_root_dir`. -/
def RootPc.idle : RootPc → Bool
  | .outside | .done _ => true
  | _ => false

section Step

variable {θ : Type} [DecidableEq θ]

def RootSystem.set (s : RootSystem θ) (w : θ) (worker : RootWorker) : RootSystem θ :=
  { s with worker := Function.update s.worker w worker }

/-- The return of a worker that was inside. -/
def RootWorker.returns (worker : RootWorker) : List RootEffect :=
  match worker.pc with
  | .done root => [.returned root]
  | _ => []

def rootStep (table : FileDirsInfo) (s : RootSystem θ) : RootEvent θ → RootSystem θ × List RootEffect
  | .call w path => if (s.worker w).pc.idle then (s.set w ⟨.draw, path⟩, []) else (s, [])
  | .step w =>
    let worker := s.worker w
    match worker.pc with
    | .outside | .done _ => (s, [])
    | .draw =>
      ({ s.set w { worker with pc := if table.num ≤ s.fileDirNo then .reset else .first s.fileDirNo } with
          fileDirNo := s.fileDirNo + 1 }, [.drawn])
    | .reset => ({ s.set w { worker with pc := .redraw } with fileDirNo := 0 }, [.resetTo0])
    | .redraw =>
      ({ s.set w { worker with pc := .first s.fileDirNo } with fileDirNo := s.fileDirNo + 1 }, [.drawn])
    | .first _ | .search _ _ => (s.set w (worker.turn table), (worker.turn table).returns)

/-- Any number of workers with one table. -/
def rootMachine (table : FileDirsInfo) : EventMachine (RootSystem θ) (RootEvent θ) (List RootEffect) :=
  ⟨rootStep table⟩

end Step

/-- No worker has called yet. -/
def rootStart {θ : Type} (fileDirNo : BitVec 32) : RootSystem θ := ⟨fileDirNo, fun _ => ⟨.outside, 0⟩⟩

end Vpu.Model.Core
