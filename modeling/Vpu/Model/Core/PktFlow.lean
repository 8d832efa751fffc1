import Vpu.Machine.Act
import Vpu.Model.Core.PktFifo
import Vpu.Model.Core.VoiceName
import Vpu.ToMathlib.ByteWords

/-! # From the device to the workers

`vpu_io_thread` counts a captured frame and puts it into the ring of its worker, and counts it again
when that ring is full. A worker gets a frame, and counts it as voice or as something else. Puts, gets
and counter updates are single steps here. `pkt_fifos` is one region of memory, ring behind ring: a put
copies `pkt_hdr.len` bytes, the length on the wire, and this may be longer than a slot.
-/

namespace Vpu.Model.Core

open Blit ByteWords

/-- `WORKER_NUM` -/
abbrev workerNum : ℕ := 8

abbrev Worker := Fin workerNum

abbrev PktMem := ℕ → BitVec 8

/-- `sizeof(pkt_fifo_t)`, the four words of the header and the slots -/
def pktFifoBytes : ℕ := 42024976

def inAddr (w : Worker) : ℕ := w.val * pktFifoBytes

def outAddr (w : Worker) : ℕ := w.val * pktFifoBytes + 4

def sizeAddr (w : Worker) : ℕ := w.val * pktFifoBytes + 8

def countAddr (w : Worker) : ℕ := w.val * pktFifoBytes + 12

/-- `&pkt_fifos[w].pkt[i]` -/
def slotAddr (w : Worker) (i : BitVec 32) : ℕ := w.val * pktFifoBytes + 16 + i.toNat * pktBufBytes

/-- `init_pkt_fifo` -/
def initPktFifos : PktMem :=
  (List.finRange workerNum).foldl
    (fun mem w => setWord (setWord mem (sizeAddr w) (BitVec.ofNat 32 pktFifoSize)) (countAddr w) 0) fun _ => 0

/-- `pkt_fifo_put`, with whether it succeeded -/
def pktFifoPut (mem : PktMem) (w : Worker) (pkt : PktMem) (pktLen : BitVec 32) : PktMem × Bool :=
  let in_ := word mem (inAddr w)
  let size := word mem (sizeAddr w)
  if size ≤ word mem (countAddr w) then (mem, false)
  else
    let mem := blit mem (slotAddr w in_) (window pkt 0 pktLen.toNat)
    let mem := setWord mem (slotAddr w in_ + 2048) pktLen
    let mem := setWord mem (countAddr w) (word mem (countAddr w) + 1)
    (setWord mem (inAddr w) (nextIndex in_ size), true)

/-- `pkt_node_t` as `pkt_fifo_get` fills it in; `pkt` is an address in `pkt_fifos`. -/
structure PktRef where
  pkt : ℕ
  pktLen : BitVec 32

/-- `pkt_fifo_get`, with the node if it succeeded -/
def pktFifoGet (mem : PktMem) (w : Worker) : PktMem × Option PktRef :=
  let out := word mem (outAddr w)
  let size := word mem (sizeAddr w)
  if word mem (countAddr w) = 0 then (mem, none)
  else if size ≤ out then (mem, none)
  else
    let node : PktRef := ⟨slotAddr w out, word mem (slotAddr w out + 2048)⟩
    let mem := setWord mem (countAddr w) (word mem (countAddr w) - 1)
    (setWord mem (outAddr w) (nextIndex out size), some node)

/-- The callid in a captured frame. -/
def frameCallid (pkt : PktMem) : BitVec 64 := word pkt 24 ++ word pkt 20

/-- `worker = ts_no % WORKER_NUM` -/
def frameWorker (pkt : PktMem) : Worker := ⟨(callTs (frameCallid pkt)).toNat % 8, Nat.mod_lt _ (by decide)⟩

/-- The test of `vpu_worker_thread` for a voice frame. -/
def isVoice (mem : PktMem) (node : PktRef) : Bool :=
  !(node.pktLen < 36 || mem (node.pkt + 12) ≠ 0x80 || mem (node.pkt + 13) ≠ 0x52 || mem (node.pkt + 16) ≠ 0x03)

/-- Where the I/O thread stands: it waits for a frame, has counted one, or had one refused. -/
inductive IoStage where
  | idle
  | captured (pkt : PktMem) (pktLen : BitVec 32)
  | refused

/-- The rings, the counters, the I/O thread, and the node of each worker from a get until it is counted. -/
structure PktFlow where
  mem : PktMem
  allPkts : BitVec 64
  lostPkts : BitVec 64
  voicePkts : BitVec 64
  otherPkts : BitVec 64
  io : IoStage
  node : Worker → Option PktRef

inductive FlowEvent where
  /-- `pcap_next` returns a frame, which is counted; `pktLen` is `pkt_hdr.len`. -/
  | capture (pkt : PktMem) (pktLen : BitVec 32)
  /-- The next step of the I/O thread. -/
  | io
  /-- The next step of a worker. -/
  | work (w : Worker)

/-- What happened to a frame. -/
inductive FlowObs where
  | captured
  | queued (w : Worker)
  | lost
  | taken (w : Worker)
  | voice (w : Worker)
  | other (w : Worker)

def PktFlow.capture (s : PktFlow) (pkt : PktMem) (pktLen : BitVec 32) : PktFlow × List FlowObs :=
  match s.io with
  | .idle => ({ s with allPkts := s.allPkts + 1, io := .captured pkt pktLen }, [.captured])
  | _ => (s, [])

def PktFlow.ioStep (s : PktFlow) : PktFlow × List FlowObs :=
  match s.io with
  | .idle => (s, [])
  | .captured pkt pktLen =>
    let w := frameWorker pkt
    let put := pktFifoPut s.mem w pkt pktLen
    if put.2 = true then ({ s with mem := put.1, io := .idle }, [.queued w])
    else ({ s with mem := put.1, io := .refused }, [])
  | .refused => ({ s with lostPkts := s.lostPkts + 1, io := .idle }, [.lost])

def PktFlow.workStep (s : PktFlow) (w : Worker) : PktFlow × List FlowObs :=
  match s.node w with
  | none =>
    let get := pktFifoGet s.mem w
    match get.2 with
    | none => ({ s with mem := get.1 }, [])
    | some node => ({ s with mem := get.1, node := Function.update s.node w (some node) }, [.taken w])
  | some node =>
    let s' := { s with node := Function.update s.node w none }
    if isVoice s.mem node = true then ({ s' with voicePkts := s.voicePkts + 1 }, [.voice w])
    else ({ s' with otherPkts := s.otherPkts + 1 }, [.other w])

/-- The I/O thread and the workers. -/
def flowMachine : EventMachine PktFlow FlowEvent (List FlowObs) :=
  ⟨fun s e =>
    match e with
    | .capture pkt pktLen => s.capture pkt pktLen
    | .io => s.ioStep
    | .work w => s.workStep w⟩

/-- The state in which `main` starts the threads. -/
def PktFlow.start : PktFlow := ⟨initPktFifos, 0, 0, 0, 0, .idle, fun _ => none⟩

end Vpu.Model.Core
