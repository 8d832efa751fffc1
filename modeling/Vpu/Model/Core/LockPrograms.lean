import Vpu.Machine.LockOrder
import Vpu.Model.Core.Timeslots

/-! # Which thread takes which mutex

`voice_parser` and `cycle_thread` hold the mutex of a timeslot and take those of the two node queues and of the call records
inside. `fax_pre` and `conn_cdr_thread` take one of these at a time, and `file_tx_thread` takes none. The accesses of
a call follow from its effects, and so stand for every packet and every state of the slot. The `memset` at the start of
a call wipes the mutex of the slot, which the thread holds.
-/

namespace Vpu.Model.Core

/-- The mutexes of `voice_file`, of `queue.eq` and `queue.fq`, and `g_cdr_buff.lock`. -/
inductive Mutex where
  | slot (pos : SlotPos)
  | eq
  | fq
  | cdr
deriving DecidableEq

/-- A function that locks a mutex first and unlocks it last. -/
def critical (l : Mutex) : List (LockOp Mutex) := [.lock l, .unlock l]

/-- `FETCH_PHEAD`, `EN_QUEUE` and `cdr_insert`, and the `memset` of a slot with its mutex. -/
def VoiceEffect.lockOps (pos : SlotPos) : VoiceEffect → List (LockOp Mutex)
  | .fetchEq => critical .eq
  | .enqueueFq _ => critical .fq
  | .cdrInsert _ => critical .cdr
  | .started _ => [.clear (.slot pos)]
  | _ => []

def underSlot (pos : SlotPos) (out : List VoiceEffect) : List (LockOp Mutex) :=
  .lock (.slot pos) :: (out.flatMap (VoiceEffect.lockOps pos) ++ [.unlock (.slot pos)])

/-- A call of `voice_parser`, a visit of `cycle_thread` or the request of a listener, on this slot. -/
def CallEvent.lockOps (e : CallEvent) (file : VoiceFile) : List (LockOp Mutex) :=
  match e with
  | .packet .. => (e.pos.map fun pos => underSlot pos (e.act file).2).getD []
  | .visit pos _ => underSlot pos (e.act file).2
  | .listen .. => []

/-- What a thread does between two points where it has no mutex. -/
inductive ThreadCall where
  | slot (e : CallEvent) (file : VoiceFile)
  /-- One turn of `fax_pre`, with whether it finds a node. -/
  | faxTurn (found : Bool)
  /-- `cdr_send`, `cdr_update_ack` or `cdr_reset_send` -/
  | cdr

def ThreadCall.lockOps : ThreadCall → List (LockOp Mutex)
  | .slot e file => e.lockOps file
  | .faxTurn found => critical .fq ++ if found = true then critical .cdr ++ critical .eq else []
  | .cdr => critical .cdr

/-- A thread that has no call begins one, or a thread does its next access to a mutex. The one that it wakes is `w`. -/
inductive ThreadEvent (θ : Type*) where
  | call (t : θ) (c : ThreadCall)
  | go (t w : θ)

def ThreadEvent.step {θ : Type*} : ThreadEvent θ → LockStep Mutex θ
  | .call t c => .begin t c.lockOps
  | .go t w => .go t w

/-- Any number of threads. -/
def mutexMachine (θ : Type*) [DecidableEq θ] [Fintype θ] : EventMachine (LockWorld Mutex θ) (ThreadEvent θ) Unit :=
  ⟨fun s e => (lockWorldMachine Mutex θ).step s e.step⟩

end Vpu.Model.Core
