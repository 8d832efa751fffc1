import Vpu.Model.Core.PktFlow

/-! # Frames as pcap delivers them

Of a frame on the wire pcap captures at most the snapshot length. The header of the capture has both lengths; the I/O
thread passes on only the one on the wire. What it reads of a captured frame and what the copy of
`pkt_fifo_put` writes are lists of offsets and addresses here.
-/

namespace Vpu.Model.Core

open ByteWords

/-- `MAX_ETH_PACKET_LEN` -/
def maxEthPacketLen : ℕ := 1518

/-- A frame in the buffer of pcap with `caplen` and `len` of its `pcap_pkthdr`. -/
structure PcapFrame where
  pkt : PktMem
  caplen : BitVec 32
  len : BitVec 32
  snapshot : caplen.toNat ≤ maxEthPacketLen
  wire : caplen ≤ len

/-- `count >= size` in `pkt_fifo_put` -/
def fifoFull (mem : PktMem) (w : Worker) : Prop := word mem (sizeAddr w) ≤ word mem (countAddr w)

instance (mem : PktMem) (w : Worker) : Decidable (fifoFull mem w) := inferInstanceAs (Decidable (_ ≤ _))

/-- The offsets that `memcpy` copies. -/
def copyOffsets (mem : PktMem) (w : Worker) (pktLen : BitVec 32) : List ℕ :=
  if fifoFull mem w then [] else List.range pktLen.toNat

/-- The offsets in a frame that are read: the callid, and what `memcpy` copies. -/
def frameReads (mem : PktMem) (w : Worker) (pktLen : BitVec 32) : List ℕ :=
  List.range' 20 8 ++ copyOffsets mem w pktLen

/-- The addresses that `memcpy` writes. -/
def slotWrites (mem : PktMem) (w : Worker) (pktLen : BitVec 32) : List ℕ :=
  (copyOffsets mem w pktLen).map (slotAddr w (word mem (inAddr w)) + ·)

/-- The rings with the threads, and `caplen` of the frame that the I/O thread has. -/
structure CapFlow where
  flow : PktFlow
  caplen : BitVec 32

inductive CapEvent where
  /-- `pcap_next` returns this frame. -/
  | capture (frame : PcapFrame)
  | io
  | work (w : Worker)

/-- The event of the threads, who see the length on the wire only. -/
def CapEvent.toFlow : CapEvent → FlowEvent
  | .capture frame => .capture frame.pkt frame.len
  | .io => .io
  | .work w => .work w

/-- A frame is taken from pcap when the I/O thread waits for one. -/
def CapFlow.caplenBehind (s : CapFlow) : CapEvent → BitVec 32
  | .capture frame =>
    match s.flow.io with
    | .idle => frame.caplen
    | _ => s.caplen
  | _ => s.caplen

def capMachine : EventMachine CapFlow CapEvent (List FlowObs) :=
  ⟨fun s e => (⟨flowMachine.next s.flow e.toFlow, s.caplenBehind e⟩, flowMachine.emit s.flow e.toFlow)⟩

def CapFlow.start : CapFlow := ⟨.start, 0⟩

end Vpu.Model.Core
