import Vpu.Model.Core.VoiceParser

/-! # The mutex inside a timeslot

`voice_parser` and `cycle_thread` lock the mutex that is a field of the slot itself. The mutex is a
lock word, and the `memset` that takes the slot over for a new call clears it with the
other fields. Each thread is a program counter; its steps are the stretches of its code between two
accesses to the lock word and, inside the worker's critical section, between the source's
blocks.
-/

namespace Vpu.Model.Core

/-- A packet that `voice_parser` has decoded. -/
structure PacketJob where
  env : Outside
  pkt : ℕ → BitVec 8
  h : VoiceHeader

/-- `voice_parser` on this slot. The flags say whether it has taken the slot over. -/
inductive WorkerPc where
  | outside
  | waiting (job : PacketJob)
  | locked (job : PacketJob)
  | judged (job : PacketJob)
  | cleaned (job : PacketJob)
  | started (job : PacketJob)
  | recording (job : PacketJob) (wiped : Bool)
  | leaving (wiped : Bool)

/-- `cycle_thread` on this slot. -/
inductive CyclePc where
  | outside
  | waiting (tim : ℤ)
  | locked (tim : ℤ)
  | leaving

/-- One slot with its lock word, 0 when unlocked, and the two threads that lock it. -/
structure LockSystem where
  file : VoiceFile
  mutex : BitVec 32
  worker : WorkerPc
  cycle : CyclePc

def lockStart (file : VoiceFile) : LockSystem := ⟨file, 0, .outside, .outside⟩

inductive LockEvent where
  /-- The worker calls `voice_parser`; it comes to the lock if the packet is accepted. -/
  | packet (env : Outside) (pkt : ℕ → BitVec 8) (pktLen : ℕ)
  | workerStep
  /-- `cycle_thread` comes to this slot in a pass at the time `tim`. -/
  | visit (tim : ℤ)
  | cycleStep

/-- The memory of the slot behind the `memset`, with the fields that the new call sets. -/
def beginCall (env : Outside) (h : VoiceHeader) : VoiceAct := fun _ =>
  (VoiceFile.begun env h, [.started h.callid, .add .callStart, .add .callOnline])

/-- The rest of `voice_parser` behind the branch of a call start. -/
def finishPacket (job : PacketJob) : VoiceAct :=
  .seq (recordPacket job.env job.pkt job.h) (.when VoiceFile.Ended (endCall job.env))

def workerStep (s : LockSystem) : LockSystem × List VoiceEffect :=
  match s.worker with
  | .outside => (s, [])
  | .waiting job =>
    if s.mutex = 0 then ({ s with mutex := 1, worker := .locked job }, []) else (s, [])
  | .locked job =>
    let file := { s.file with updateTime := job.env.now }
    if file.Drops job.env job.h.callid then ({ s with file, worker := .leaving false }, [])
    else ({ s with file := markTooOld job.env job.h.callid file, worker := .judged job }, [])
  | .judged job =>
    if s.file.callid ≠ job.h.callid then
      ({ s with file := (cleanupFileStruct s.file).1, worker := .cleaned job },
        (cleanupFileStruct s.file).2)
    else ({ s with worker := .recording job false }, [])
  | .cleaned job =>
    -- the `memset` covers the mutex
    ({ s with file := (beginCall job.env job.h s.file).1, mutex := 0, worker := .started job },
      (beginCall job.env job.h s.file).2)
  | .started job =>
    ({ s with file := (openCall job.env s.file).1, worker := .recording job true },
      (openCall job.env s.file).2)
  | .recording job wiped =>
    ({ s with file := (finishPacket job s.file).1, worker := .leaving wiped }, (finishPacket job s.file).2)
  | .leaving _ => ({ s with mutex := 0, worker := .outside }, [])

def cycleStep (s : LockSystem) : LockSystem × List VoiceEffect :=
  match s.cycle with
  | .outside => (s, [])
  | .waiting tim => if s.mutex = 0 then ({ s with mutex := 1, cycle := .locked tim }, []) else (s, [])
  | .locked tim =>
    ({ s with file := (cycleVisit tim s.file).1, cycle := .leaving }, (cycleVisit tim s.file).2)
  | .leaving => ({ s with mutex := 0, cycle := .outside }, [])

/-- A thread that is still busy with the slot does not come to it again. -/
def lockStep (s : LockSystem) : LockEvent → LockSystem × List VoiceEffect
  | .packet env pkt pktLen =>
    match s.worker, parseHeader pkt pktLen with
    | .outside, .ok h => ({ s with worker := .waiting ⟨env, pkt, h⟩ }, [])
    | _, _ => (s, [])
  | .workerStep => workerStep s
  | .visit tim =>
    match s.cycle with
    | .outside => ({ s with cycle := .waiting tim }, [])
    | _ => (s, [])
  | .cycleStep => cycleStep s

def lockMachine : EventMachine LockSystem LockEvent (List VoiceEffect) := ⟨lockStep⟩

/-- Between its lock and its unlock. -/
def WorkerPc.Inside : WorkerPc → Prop
  | .outside => False
  | .waiting _ => False
  | _ => True

/-- Inside and behind the `memset`. -/
def WorkerPc.Wiped : WorkerPc → Prop
  | .started _ => True
  | .recording _ wiped => wiped = true
  | .leaving wiped => wiped = true
  | _ => False

/-- Between its lock and its unlock. -/
def CyclePc.Inside : CyclePc → Prop
  | .outside => False
  | .waiting _ => False
  | _ => True

instance : DecidablePred WorkerPc.Inside
  | .outside => isFalse id
  | .waiting _ => isFalse id
  | .locked _ => isTrue trivial
  | .judged _ => isTrue trivial
  | .cleaned _ => isTrue trivial
  | .started _ => isTrue trivial
  | .recording _ _ => isTrue trivial
  | .leaving _ => isTrue trivial

instance : DecidablePred CyclePc.Inside
  | .outside => isFalse id
  | .waiting _ => isFalse id
  | .locked _ => isTrue trivial
  | .leaving => isTrue trivial

end Vpu.Model.Core
