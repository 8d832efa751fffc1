import Vpu.Model.Core.FaxPool
import Vpu.Model.Core.FaxQueue

/-! # The graceful stop

SIGINT sets `SVM_STOP`. When `cycle_thread` then finds `call_online` at 0, it sets `SVM_DONE`, and each
`fax_pre` thread leaves its loop at the top. Calls, visits and the accesses of the `fax_pre` threads go on
as in the pool, in any order. Listeners and packets may still come behind `SVM_DONE`: a worker that is past its own
test handles one more.

The queues have their `len` here, and the write that `FETCH_PHEAD` makes behind its unlock is a step of its own. So an
`EN_QUEUE` may find a `len` that is too small, and cut nodes off.
-/

namespace Vpu.Model.Core

/-- Where `cycle_thread` is: in its loop, behind the test of `call_online`, behind the loop. -/
inductive CycleStop where
  | looping
  | stopping
  | left
deriving DecidableEq, Repr

/-- Where a `fax_pre` thread is: at the top of its loop, behind the test of `SVM_DONE`, in a `FETCH_PHEAD`
that has unlocked an empty `fq`, behind the loop. -/
inductive FaxPc where
  | test
  | turn
  | late
  | left
deriving DecidableEq, Repr

/-- What is noted about the records on `fq`; they are numbered as they come. -/
structure StopLog (θ : Type*) where
  queued : List StructCdr
  /-- The numbers of the records that are on `fq`. -/
  waiting : List ℕ
  /-- The number of the record that a thread fetched last. -/
  hand : θ → ℕ
  /-- What was passed to `cdr_insert`, with its number. -/
  inserted : List (ℕ × StructCdr)
  /-- So many had come when `SVM_DONE` was set. -/
  before : Option ℕ

structure StopState (θ : Type*) where
  pool : PoolState θ
  /-- `eq->len` -/
  eqLen : ℤ
  /-- `fq->len` -/
  fqLen : ℤ
  /-- The call on this slot is in a `FETCH_PHEAD` that has unlocked an empty `eq`. -/
  eqLate : SlotPos → Bool
  /-- `SVM_STOP` -/
  stop : Bool
  /-- `SVM_DONE` -/
  done : Bool
  cycle : CycleStop
  pc : θ → FaxPc
  log : StopLog θ

inductive StopEvent (θ : Type*) where
  /-- A packet, a visit or a listener comes to a slot. -/
  | slot (pos : SlotPos) (e : SlotEvent)
  /-- The next effect of the call on this slot happens. -/
  | effect (pos : SlotPos)
  | sigint
  /-- `cycle_thread` tests the signal flags and `call_online`. -/
  | readOnline
  /-- `svm_signal_flags |= SVM_DONE; break;` -/
  | setDone
  /-- The next step of a `fax_pre` thread; `yes` is the outcome if it decodes. -/
  | fax (t : θ) (yes : Bool)

variable {θ : Type*} [DecidableEq θ]

def StopLog.read (log : StopLog θ) : PoolObs θ → StopLog θ
  | .did _ _ (.enqueueFq node) =>
    { log with queued := log.queued ++ [node.cdr], waiting := log.waiting ++ [log.queued.length] }
  | .did _ _ _ => log
  | .fetched t =>
    { log with hand := Function.update log.hand t (log.waiting.headD 0), waiting := log.waiting.tail }
  | .inserted t node => { log with inserted := (log.hand t, node.cdr) :: log.inserted }
  | .returned _ _ => log

/-- `cycle_thread` visits slots in its loop only. -/
def SlotEvent.comes (cycle : CycleStop) : SlotEvent → Bool
  | .visit _ => cycle == .looping
  | _ => true

/-- A step of the pool. -/
def StopState.move (s : StopState θ) (e : PoolEvent θ) : StopState θ :=
  { s with pool := (poolStep s.pool e).1, log := (poolStep s.pool e).2.foldl StopLog.read s.log }

omit [DecidableEq θ] in
/-- `EN_QUEUE` on `eq`, in front of the link to the new node. -/
def StopState.walkEq (s : StopState θ) : StopState θ :=
  { s with
    pool := { s.pool with shared := { s.pool.shared with eq := reached s.eqLen s.pool.shared.eq } }
    eqLen := s.eqLen + 1 }

omit [DecidableEq θ] in
/-- `EN_QUEUE` on `fq`, in front of the link to the new node. -/
def StopState.walkFq (s : StopState θ) : StopState θ :=
  { s with
    pool := { s.pool with shared := { s.pool.shared with fq := reached s.fqLen s.pool.shared.fq } }
    log := { s.log with waiting := reached s.fqLen s.log.waiting }
    fqLen := s.fqLen + 1 }

/-- The next effect of the call on a slot. -/
def stopEffect (s : StopState θ) (pos : SlotPos) : StopState θ :=
  if s.eqLate pos = true then { s with eqLen := 0, eqLate := Function.update s.eqLate pos false }
  else
    match s.pool.pending pos with
    | .fetchEq :: _ =>
      if s.pool.answerHolds pos = true then
        match s.pool.shared.eq with
        | [] => { s.move (.effect pos) with eqLate := Function.update s.eqLate pos true }
        | _ :: _ => { s.move (.effect pos) with eqLen := s.eqLen - 1 }
      else s
    | .enqueueFq _ :: _ => s.walkFq.move (.effect pos)
    | _ => s.move (.effect pos)

/-- A step of a `fax_pre` thread: the test at the top, or the next access of its turn. -/
def stopFax (s : StopState θ) (t : θ) (yes : Bool) : StopState θ :=
  match s.pc t with
  | .test => { s with pc := Function.update s.pc t (if s.done = true then .left else .turn) }
  | .turn =>
    match s.pool.stage t with
    | .idle =>
      match s.pool.shared.fq with
      | [] => { s with pc := Function.update s.pc t .late }
      | _ :: _ => { s.move (.fax t yes) with fqLen := s.fqLen - 1 }
    | .counted _ => { s.walkEq.move (.fax t yes) with pc := Function.update s.pc t .test }
    | _ => s.move (.fax t yes)
  | .late => { s with fqLen := 0, pc := Function.update s.pc t .test }
  | .left => s

def stopStep (s : StopState θ) : StopEvent θ → StopState θ
  | .slot pos e => if e.comes s.cycle = true ∧ s.eqLate pos = false then s.move (.slot pos e) else s
  | .effect pos => stopEffect s pos
  | .sigint => { s with stop := true }
  | .readOnline =>
    if s.cycle = .looping ∧ s.stop = true ∧ s.pool.shared.count .callOnline = 0 then { s with cycle := .stopping }
    else s
  | .setDone =>
    if s.cycle = .stopping then
      { s with done := true, cycle := .left, log := { s.log with before := some s.log.queued.length } }
    else s
  | .fax t yes => stopFax s t yes

/-- `main` before its threads start. -/
def stopStart (θ : Type*) (n : ℕ) (fileDirs : FileDirsInfo) : StopState θ where
  pool := poolStart θ n fileDirs
  eqLen := (initNodes n).length
  fqLen := 0
  eqLate := fun _ => false
  stop := false
  done := false
  cycle := .looping
  pc := fun _ => .test
  log := ⟨[], [], fun _ => 0, [], none⟩

def stopMachine (θ : Type*) [DecidableEq θ] : EventMachine (StopState θ) (StopEvent θ) Unit :=
  ⟨fun s e => (stopStep s e, ())⟩

end Vpu.Model.Core
