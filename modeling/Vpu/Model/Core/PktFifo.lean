import Vpu.Machine.Run
import Vpu.ToMathlib.ByteWords

/-! # The packet rings of `pkt_fifo.c`

The I/O thread calls `pkt_fifo_put` and one worker calls `pkt_fifo_get`. Each call is a program
counter with the locals read so far, and each access to the shared ring is a step of its own, so
that an event list is an interleaving. `pkt_fifo_get` returns a pointer into the ring: the worker
goes on reading that slot until its next call. The slots are bytes: `pkt_fifo_put` copies `pkt_len` of
them without looking whether the slot has room for as many. The last three fields of the system only
record which slots were filled, selected and given back.
-/

namespace Vpu.Model.Core

open Blit ByteWords

/-- `pkt_node_t` as the I/O thread fills it in: `pkt` is the memory behind the pointer. -/
structure PktNode where
  pkt : ℕ → BitVec 8
  pktLen : BitVec 32

/-- The bytes that a put copies. -/
def PktNode.bytes (node : PktNode) : List (BitVec 8) := window node.pkt 0 node.pktLen.toNat

/-- `sizeof(pkt_buf_t)`: 2048 bytes for the packet, and its length. -/
def pktBufBytes : ℕ := 2052

/-- `pkt_fifo_t`. `pkt` is the memory from the first slot on: the slots, and what lies behind the ring. -/
structure PktFifo where
  in_ : BitVec 32
  out : BitVec 32
  size : BitVec 32
  count : BitVec 32
  pkt : ℕ → BitVec 8

/-- Where a slot begins. -/
def slotStart (i : BitVec 32) : ℕ := i.toNat * pktBufBytes

/-- `pkt[i].pkt_len` -/
def slotLen (pkt : ℕ → BitVec 8) (i : BitVec 32) : BitVec 32 := word pkt (slotStart i + 2048)

/-- `memcpy(pkt[in].pkt, node->pkt, node->pkt_len); pkt[in].pkt_len = node->pkt_len;` -/
def storePkt (pkt : ℕ → BitVec 8) (in_ : BitVec 32) (node : PktNode) : ℕ → BitVec 8 :=
  setWord (blit pkt (slotStart in_) node.bytes) (slotStart in_ + 2048) node.pktLen

/-- `PKT_FIFO_SIZE` -/
def pktFifoSize : ℕ := 20480

/-- One ring after `init_pkt_fifo`. -/
def initPktFifo : PktFifo where
  in_ := 0
  out := 0
  size := BitVec.ofNat 32 pktFifoSize
  count := 0
  pkt := fun _ => 0

/-- `in = in + 1; if (in >= size) in = 0;` -/
def nextIndex (i size : BitVec 32) : BitVec 32 := if size ≤ i + 1 then 0 else i + 1

/-- `pkt_fifo_put` between two accesses to the ring. -/
inductive PutPc where
  | idle
  | readIn (node : PktNode) (in_ size : BitVec 32)
  /-- `count` was below `size`. -/
  | readCount (node : PktNode) (in_ size : BitVec 32)
  | copied (in_ size : BitVec 32)
  | counted (in_ size : BitVec 32)

/-- `pkt_fifo_get` between two accesses to the ring, and the worker behind a successful call. From
`selected` on, `node->pkt` points to the slot and `node->pkt_len` is `len`. -/
inductive GetPc where
  | idle
  | readOut (out size : BitVec 32)
  /-- `count` was not 0. -/
  | readCount (out size : BitVec 32)
  | selected (out size : BitVec 32) (len : BitVec 32)
  | counted (out size : BitVec 32) (len : BitVec 32)
  | working (slot : BitVec 32) (len : BitVec 32)

structure PktSystem where
  fifo : PktFifo
  put : PutPc
  get : GetPc
  filled : List (BitVec 32 × PktNode)
  selected : List (BitVec 32)
  taken : ℕ

def pktStart : PktSystem := ⟨initPktFifo, .idle, .idle, [], [], 0⟩

inductive PktEvent where
  /-- The I/O thread calls `pkt_fifo_put` and reads `in` and `size`. -/
  | putCall (node : PktNode)
  | putStep
  /-- The worker calls `pkt_fifo_get` and reads `out` and `size`. -/
  | getCall
  | getStep

/-- The next access of `pkt_fifo_put`, with its return value if it was the last one. -/
def putStep (s : PktSystem) : PktSystem × Option ℤ :=
  match s.put with
  | .idle => (s, none)
  | .readIn node in_ size =>
    if size ≤ s.fifo.count then ({ s with put := .idle }, some (-1))
    else ({ s with put := .readCount node in_ size }, none)
  | .readCount node in_ size =>
    ({ s with
        fifo := { s.fifo with pkt := storePkt s.fifo.pkt in_ node }
        put := .copied in_ size
        filled := s.filled ++ [(in_, node)] }, none)
  | .copied in_ size =>
    ({ s with fifo := { s.fifo with count := s.fifo.count + 1 }, put := .counted in_ size }, none)
  | .counted in_ size =>
    ({ s with fifo := { s.fifo with in_ := nextIndex in_ size }, put := .idle }, some 0)

/-- The next access of `pkt_fifo_get`, with its return value if it was the last one. -/
def getStep (s : PktSystem) : PktSystem × Option ℤ :=
  match s.get with
  | .idle => (s, none)
  | .readOut out size =>
    if s.fifo.count = 0 then ({ s with get := .idle }, some (-2))
    else ({ s with get := .readCount out size }, none)
  | .readCount out size =>
    if size ≤ out then ({ s with get := .idle }, some (-3))
    else
      ({ s with
          get := .selected out size (slotLen s.fifo.pkt out)
          selected := s.selected ++ [out] }, none)
  | .selected out size len =>
    ({ s with
        fifo := { s.fifo with count := s.fifo.count - 1 }
        get := .counted out size len
        taken := s.taken + 1 }, none)
  | .counted out size len =>
    ({ s with fifo := { s.fifo with out := nextIndex out size }, get := .working out len }, some 0)
  | .working _ _ => (s, none)

/-- A thread that is inside a call cannot call again. -/
def putCall (s : PktSystem) (node : PktNode) : PktSystem :=
  match s.put with
  | .idle => { s with put := .readIn node s.fifo.in_ s.fifo.size }
  | _ => s

/-- The worker's next call ends its work on the packet it has. -/
def getCall (s : PktSystem) : PktSystem :=
  match s.get with
  | .idle => { s with get := .readOut s.fifo.out s.fifo.size }
  | .working _ _ => { s with get := .readOut s.fifo.out s.fifo.size }
  | _ => s

def pktStep (s : PktSystem) : PktEvent → PktSystem × Option ℤ
  | .putCall node => (putCall s node, none)
  | .putStep => putStep s
  | .getCall => (getCall s, none)
  | .getStep => getStep s

/-- One ring with its two threads; a step emits the return value of the call that it ends. -/
def pktMachine : EventMachine PktSystem PktEvent (Option ℤ) := ⟨pktStep⟩

namespace PktSystem

/-- The slots that were filled and not given back, oldest first, with what was put there. -/
def held (s : PktSystem) : List (BitVec 32 × PktNode) := s.filled.drop s.taken

/-- The slot that the next event fills. -/
def fillSlot (s : PktSystem) : PktEvent → Option (BitVec 32)
  | .putStep =>
    match s.put with
    | .readCount _ in_ _ => some in_
    | _ => none
  | _ => none

/-- The next event writes the byte at this place behind `fifo->pkt`. -/
def Writes (s : PktSystem) (e : PktEvent) (a : ℕ) : Prop :=
  ∃ node in_ size, e = .putStep ∧ s.put = .readCount node in_ size ∧
    (slotStart in_ ≤ a ∧ a < slotStart in_ + node.pktLen.toNat ∨ slotStart in_ + 2048 ≤ a ∧ a < slotStart in_ + pktBufBytes)

/-- The next event writes a byte of this slot. -/
def WritesSlot (s : PktSystem) (e : PktEvent) (slot : BitVec 32) : Prop := ∃ d < pktBufBytes, s.Writes e (slotStart slot + d)

/-- The slot and the length in the worker's `node`, from the selection to the next call. -/
def node (s : PktSystem) : Option (BitVec 32 × BitVec 32) :=
  match s.get with
  | .selected out _ len => some (out, len)
  | .counted out _ len => some (out, len)
  | .working slot len => some (slot, len)
  | _ => none

end PktSystem

end Vpu.Model.Core
