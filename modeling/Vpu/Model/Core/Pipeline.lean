import Vpu.Machine.Parts
import Vpu.Model.Core.PktFlow
import Vpu.Model.Core.Timeslots

/-! # From the device to the timeslots

A worker that has a voice frame calls `voice_parser` with the pointer into its ring, so the packet is what lies there
when the worker comes to it. The I/O thread, the eight workers, the visits of `cycle_thread` and the requests for live
voice take their steps in any order. `voice_parser` and the counting of its frame are one step of a worker.
-/

namespace Vpu.Model.Core

open Blit

/-- A frame in the buffer of pcap, with `pkt_hdr.len`. -/
structure Frame where
  pkt : PktMem
  pktLen : BitVec 32

def Frame.bytes (frame : Frame) : List (BitVec 8) := window frame.pkt 0 frame.pktLen.toNat

/-- The test of `vpu_worker_thread` on the frame itself. -/
def Frame.voice (frame : Frame) : Bool := isVoice frame.pkt ⟨0, frame.pktLen⟩

/-- The bytes of a packet that `pkt_len` covers. -/
def CallEvent.packetBytes : CallEvent → Option (List (BitVec 8))
  | .packet _ pkt pktLen => some (window pkt 0 pktLen)
  | _ => none

/-- The rings with their threads, and the timeslots. -/
structure Pipeline where
  flow : PktFlow
  slots : SlotPos → VoiceFile

inductive PipeEvent where
  | capture (pkt : PktMem) (pktLen : BitVec 32)
  | io
  /-- The next step of a worker, and what the outside answers if it calls `voice_parser`. -/
  | work (w : Worker) (env : Outside)
  | visit (pos : SlotPos) (tim : ℤ)
  | listen (connfd : ℤ) (callid : BitVec 64)

inductive PipeObs where
  | captured (frame : Frame)
  /-- `pkt_fifo_put` returns 0. -/
  | queued (frame : Frame)
  | taken (w : Worker)
  /-- A worker is done with its frame; it called `voice_parser` or did not. -/
  | handled (w : Worker) (call : Option CallEvent)
  /-- A call on a timeslot that is no packet. -/
  | call (e : CallEvent)

namespace Pipeline

def capture (s : Pipeline) (pkt : PktMem) (pktLen : BitVec 32) : Pipeline × List PipeObs :=
  match s.flow.io with
  | .idle => ({ s with flow := (s.flow.capture pkt pktLen).1 }, [.captured ⟨pkt, pktLen⟩])
  | _ => (s, [])

def ioStep (s : Pipeline) : Pipeline × List PipeObs :=
  match s.flow.io with
  | .captured pkt pktLen =>
    ({ s with flow := s.flow.ioStep.1 },
      if (pktFifoPut s.flow.mem (frameWorker pkt) pkt pktLen).2 = true then [.queued ⟨pkt, pktLen⟩] else [])
  | _ => ({ s with flow := s.flow.ioStep.1 }, [])

/-- `voice_parser(node.pkt, node.pkt_len)` -/
def parserCall (mem : PktMem) (node : PktRef) (env : Outside) : CallEvent :=
  .packet env (fun i => mem (node.pkt + i)) node.pktLen.toNat

def workStep (s : Pipeline) (w : Worker) (env : Outside) : Pipeline × List PipeObs :=
  match s.flow.node w with
  | none =>
    ({ s with flow := (s.flow.workStep w).1 }, if (pktFifoGet s.flow.mem w).2.isSome = true then [.taken w] else [])
  | some node =>
    let call := if isVoice s.flow.mem node = true then some (parserCall s.flow.mem node env) else none
    (⟨(s.flow.workStep w).1, slotsMachine.run s.slots call.toList⟩, [.handled w call])

/-- A call that another thread makes on the timeslots. -/
def other (s : Pipeline) (e : CallEvent) : Pipeline × List PipeObs :=
  ({ s with slots := slotsMachine.next s.slots e }, [.call e])

/-- The state in which `main` starts the threads. -/
def start : Pipeline := ⟨.start, fun _ => .cleared 0⟩

end Pipeline

/-- All threads that touch the rings or the timeslots. -/
def pipeMachine : EventMachine Pipeline PipeEvent (List PipeObs) :=
  ⟨fun s e =>
    match e with
    | .capture pkt pktLen => s.capture pkt pktLen
    | .io => s.ioStep
    | .work w env => s.workStep w env
    | .visit pos tim => s.other (.visit pos tim)
    | .listen connfd callid => s.other (.listen connfd callid)⟩

/-! ## What is seen of a run -/

def PipeObs.call? : PipeObs → Option CallEvent
  | .handled _ parsed => parsed
  | .call e => some e
  | _ => none

def PipeObs.captured? : PipeObs → Option Frame
  | .captured frame => some frame
  | _ => none

def PipeObs.queued? : PipeObs → Option Frame
  | .queued frame => some frame
  | _ => none

/-- The calls on the timeslots, in the order in which they were made. -/
def callsMade (shown : List PipeObs) : List CallEvent := shown.filterMap PipeObs.call?

def framesCaptured (shown : List PipeObs) : List Frame := shown.filterMap PipeObs.captured?

/-- The frames that were put into rings, in the order of their capture. -/
def framesQueued (shown : List PipeObs) : List Frame := shown.filterMap PipeObs.queued?

/-- What is seen of a run from the start. -/
def pipeShown (es : List PipeEvent) : List PipeObs := (pipeMachine.trace .start es).flatten

end Vpu.Model.Core
