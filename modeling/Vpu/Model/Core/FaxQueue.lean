import Vpu.Machine.Run
import Vpu.ToMathlib.LinkedChain
import Mathlib.Data.Int.Notation

/-! # The node queues of `fax_queue.c`

A queue is a chain of nodes behind `phead` with a counter `len` beside it. `EN_QUEUE` finds the
tail by counting `len` steps and never looks at a `next` field to see whether it is the last one.
`FETCH_PHEAD` on an empty queue sets `len` to 0 after it has released the mutex, so that write is
an event of its own. `QueueSystem` runs any number of threads on one queue; its last two
fields only record which nodes went in and came out.
-/

namespace Vpu.Model.Core

open LinkedChain

/-- `QUEUE` with the `next` fields of all nodes. -/
structure FaxQueue (ν : Type*) where
  phead : Option ν
  len : ℤ
  next : ν → Option ν

variable {θ ν : Type*} [DecidableEq θ] [DecidableEq ν]

/-- One node that `INIT_QUEUE` has allocated: it becomes the head, or is linked behind the last. -/
def initNode (state : FaxQueue ν × Option ν) (q : ν) : FaxQueue ν × Option ν :=
  let next := Function.update state.1.next q none
  match state.2 with
  | none => ({ phead := some q, len := state.1.len + 1, next }, some q)
  | some p =>
    ({ state.1 with len := state.1.len + 1, next := Function.update next p (some q) }, some q)

/-- `INIT_QUEUE` for one queue, given the nodes that `malloc` returns. -/
def initQueue (next : ν → Option ν) (nodes : List ν) : FaxQueue ν :=
  (nodes.foldl initNode (⟨none, 0, next⟩, none)).1

/-- `EN_QUEUE` under the mutex. The loop takes `len - 1` steps from `phead`; `none` is the case
that it reads `p->next` of a null `p`. -/
def enQueue (q : FaxQueue ν) (tmp : ν) : Option (FaxQueue ν) :=
  match walk q.next (q.len - 1).toNat q.phead with
  | none => none
  | some none => some { q with phead := some tmp, len := q.len + 1 }
  | some (some p) => some { q with next := Function.update q.next p (some tmp), len := q.len + 1 }

/-- `FETCH_PHEAD` under the mutex. -/
def fetchPhead (q : FaxQueue ν) : FaxQueue ν × Option ν :=
  match q.phead with
  | none => (q, none)
  | some p => (⟨q.next p, q.len - 1, Function.update q.next p none⟩, some p)

/-- The write that `FETCH_PHEAD` makes after unlocking an empty queue. -/
def lateLen (q : FaxQueue ν) : FaxQueue ν := { q with len := 0 }

/-- The nodes in front of the one where the walk of `EN_QUEUE` ends, and that one; with any `len` it gets
to the first node. -/
def reached (len : ℤ) (nodes : List ν) : List ν := nodes.take (max 1 len).toNat

structure QueueSystem (θ ν : Type*) where
  mem : FaxQueue ν
  /-- Threads between the unlock of an empty queue and their write to `len`. -/
  late : θ → Bool
  nullDeref : Bool
  enqueued : List ν
  fetched : List ν

/-- A queue as `INIT_QUEUE` leaves it, with its first nodes counted as enqueued. -/
def queueStart (next : ν → Option ν) (nodes : List ν) : QueueSystem θ ν where
  mem := initQueue next nodes
  late := fun _ => false
  nullDeref := false
  enqueued := nodes
  fetched := []

inductive QueueEvent (θ ν : Type*) where
  | enQueue (t : θ) (tmp : ν)
  | fetchPhead (t : θ)
  | lateLen (t : θ)

def queueNext (s : QueueSystem θ ν) : QueueEvent θ ν → QueueSystem θ ν
  | .enQueue _ tmp =>
    match enQueue s.mem tmp with
    | none => { s with nullDeref := true }
    | some mem => { s with mem, enqueued := s.enqueued ++ [tmp] }
  | .fetchPhead t =>
    match (fetchPhead s.mem).2 with
    | none => { s with mem := (fetchPhead s.mem).1, late := Function.update s.late t true }
    | some p => { s with mem := (fetchPhead s.mem).1, fetched := s.fetched ++ [p] }
  | .lateLen t => { s with mem := lateLen s.mem, late := Function.update s.late t false }

def queueMachine : EventMachine (QueueSystem θ ν) (QueueEvent θ ν) Unit :=
  ⟨fun s e => (queueNext s e, ())⟩

omit [DecidableEq θ] in
/-- A node went in more often than it came out. -/
def QueueSystem.Waiting (s : QueueSystem θ ν) (n : ν) : Prop := s.fetched.count n < s.enqueued.count n

instance (s : QueueSystem θ ν) (n : ν) : Decidable (s.Waiting n) :=
  inferInstanceAs (Decidable (_ < _))

/-- What threads do: none starts a call before its last one is complete, and a node is enqueued
by whoever owns it, with its `next` null. -/
def queueAllowed (s : QueueSystem θ ν) : QueueEvent θ ν → Prop
  | .enQueue t tmp => s.late t = false ∧ s.mem.next tmp = none ∧ ¬ s.Waiting tmp
  | .fetchPhead t => s.late t = false
  | .lateLen t => s.late t = true

instance (s : QueueSystem θ ν) (e : QueueEvent θ ν) : Decidable (queueAllowed s e) :=
  match e with
  | .enQueue t tmp =>
    inferInstanceAs (Decidable (s.late t = false ∧ s.mem.next tmp = none ∧ ¬ s.Waiting tmp))
  | .fetchPhead t => inferInstanceAs (Decidable (s.late t = false))
  | .lateLen t => inferInstanceAs (Decidable (s.late t = true))

end Vpu.Model.Core
