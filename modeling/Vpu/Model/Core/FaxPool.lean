import Vpu.Model.Core.Timeslots

/-! # The pool of fax nodes

`INIT_QUEUE` fills the queue of empty nodes; calls take nodes from it and hand them over, and the
`fax_pre` threads decode them and put them back. Here the shared accesses of all threads may
interleave. A call of `voice_parser` or a visit of `cycle_thread` has its slot for itself until it
is through, so the slot changes at once, and the effects wait in `pending` and happen one by one.
What the call's `FETCH_PHEAD` will return is answered beforehand, as `answer`; a run in which
this answer turns out wrong stays in front of the fetch. The queues are lists and each queue
operation is one event here, also the `FETCH_PHEAD` of an empty queue with its late write.
-/

namespace Vpu.Model.Core

/-- Where a `fax_pre` thread stands: behind the fetch, behind `fax_dequeue`, behind `decode_mem`, behind
`cdr_insert`, behind `fax_yes` or `fax_no`. -/
inductive FaxStage where
  | idle
  | fetched (node : FaxNode)
  | decoding (node : FaxNode)
  | decoded (node : FaxNode)
  | inserted (node : FaxNode)
  | counted (node : FaxNode)

structure PoolState (θ : Type*) where
  slots : SlotPos → VoiceFile
  pending : SlotPos → List VoiceEffect
  answer : SlotPos → Option FaxNode
  shared : Shared
  stage : θ → FaxStage
  faxDequeue : BitVec 64
  faxYes : BitVec 64
  faxNo : BitVec 64

/-- The nodes that `INIT_QUEUE` allocates for `num` = `n`, by the order of allocation. Its `do` loop runs
once also for 0. -/
def initNodes (n : ℕ) : List FaxNode := (List.range (max n 1)).map fun i => ⟨i, .zero, fun _ _ => 0⟩

/-- `main` before its threads start. -/
def poolStart (θ : Type*) (n : ℕ) (fileDirs : FileDirsInfo) : PoolState θ where
  slots := (vpuStart (initNodes n) fileDirs).slots
  pending := fun _ => []
  answer := fun _ => none
  shared := (vpuStart (initNodes n) fileDirs).shared
  stage := fun _ => .idle
  faxDequeue := 0
  faxYes := 0
  faxNo := 0

inductive PoolEvent (θ : Type*) where
  /-- A packet, a visit or a listener comes to a slot. -/
  | slot (pos : SlotPos) (e : SlotEvent)
  /-- The next effect of the call on this slot happens. -/
  | effect (pos : SlotPos)
  /-- The next step of a `fax_pre` thread; `yes` is the outcome if it decodes. -/
  | fax (t : θ) (yes : Bool)

/-- What became visible. -/
inductive PoolObs (θ : Type*) where
  | did (pos : SlotPos) (found : Option ℕ) (e : VoiceEffect)
  | fetched (t : θ)
  | inserted (t : θ) (node : FaxNode)
  | returned (t : θ) (node : FaxNode)

/-- The answer that a slot's call has been given about the queue of empty nodes. -/
def SlotEvent.answer : SlotEvent → Option FaxNode
  | .packet env _ _ => env.eqHead
  | .visit _ => none
  | .listen _ _ => none

variable {θ : Type*} [DecidableEq θ]

/-- A call begins on a slot that is free. -/
def poolSlot (s : PoolState θ) (pos : SlotPos) (e : SlotEvent) : PoolState θ :=
  if (s.pending pos).isEmpty = true then
    { s with
      slots := Function.update s.slots pos (slotAct e (s.slots pos)).1
      pending := Function.update s.pending pos (slotAct e (s.slots pos)).2
      answer := Function.update s.answer pos e.answer }
  else s

/-- The address that a fetch of this slot's call returns. -/
def PoolState.found (s : PoolState θ) (pos : SlotPos) : Option ℕ := (s.answer pos).map FaxNode.addr

/-- The answer names the node that is at the head of the queue. -/
def PoolState.answerHolds (s : PoolState θ) (pos : SlotPos) : Bool :=
  s.shared.eq.head?.map FaxNode.addr == s.found pos

/-- An effect happens; a fetch only as it was answered. -/
def poolEffect (s : PoolState θ) (pos : SlotPos) : PoolState θ × List (PoolObs θ) :=
  match s.pending pos with
  | [] => (s, [])
  | .fetchEq :: rest =>
    if s.answerHolds pos = true then
      ({ s with
          shared := s.shared.apply .fetchEq
          pending := Function.update s.pending pos rest },
        [.did pos (s.found pos) .fetchEq])
    else (s, [])
  | e :: rest =>
    ({ s with
        shared := s.shared.apply e
        pending := Function.update s.pending pos rest },
      [.did pos (s.found pos) e])

/-- `p->cdr.callflag = ...` -/
def FaxNode.setCallflag (node : FaxNode) (yes : Bool) : FaxNode :=
  { node with cdr := { node.cdr with callflag := if yes = true then 1 else 0 } }

/-- The loop of `fax_pre`, a shared access at a time. -/
def poolFax (s : PoolState θ) (t : θ) (yes : Bool) : PoolState θ × List (PoolObs θ) :=
  let goTo (s : PoolState θ) (stage : FaxStage) : PoolState θ :=
    { s with stage := Function.update s.stage t stage }
  match s.stage t with
  | .idle =>
    match s.shared.fq with
    | [] => (s, [])
    | node :: rest => (goTo { s with shared := { s.shared with fq := rest } } (.fetched node), [.fetched t])
  | .fetched node => (goTo { s with faxDequeue := s.faxDequeue + 1 } (.decoding node), [])
  | .decoding node => (goTo s (.decoded (node.setCallflag yes)), [])
  | .decoded node =>
    (goTo { s with shared := { s.shared with cdrs := s.shared.cdrs ++ [node.cdr] } } (.inserted node),
      [.inserted t node])
  | .inserted node =>
    if node.cdr.callflag = 1 then (goTo { s with faxYes := s.faxYes + 1 } (.counted node), [])
    else (goTo { s with faxNo := s.faxNo + 1 } (.counted node), [])
  | .counted node =>
    (goTo { s with shared := { s.shared with eq := s.shared.eq ++ [node] } } .idle, [.returned t node])

def poolStep (s : PoolState θ) : PoolEvent θ → PoolState θ × List (PoolObs θ)
  | .slot pos e => (poolSlot s pos e, [])
  | .effect pos => poolEffect s pos
  | .fax t yes => poolFax s t yes

def poolMachine (θ : Type*) [DecidableEq θ] : EventMachine (PoolState θ) (PoolEvent θ) (List (PoolObs θ)) :=
  ⟨poolStep⟩

end Vpu.Model.Core
