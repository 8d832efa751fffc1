import Vpu.Model.Core.Cdr
import Vpu.ToMathlib.Framing
import Vpu.ToMathlib.Packed

/-! # Call records on the wire

`cdr_send` writes six bytes of header and then its copies of the records as they lie in memory, 24 bytes
each. Both go through `sock_send_buf`, that calls `send` until all bytes are taken or a call fails. The server reads
frame by frame: the header says how many records follow.
-/

namespace Vpu.Model.Core

open Packed

/-- `STRUCT_CDR` in memory: the widths of its members, that leave no gap, and their values. -/
def StructCdr.members (cdr : StructCdr) : List (ℕ × ℕ) :=
  [(8, cdr.callid.toNat), (8, (cdr.time % 2 ^ 64).toNat), (2, cdr.path.toNat), (1, cdr.callflag.toNat),
    (1, cdr.ruleflag.toNat), (4, cdr.recv3.toNat)]

def StructCdr.bytes (cdr : StructCdr) : List (BitVec 8) := pack cdr.members

/-- `time` is a `time_t`. -/
def StructCdr.Fits (cdr : StructCdr) : Prop := -2 ^ 63 ≤ cdr.time ∧ cdr.time < 2 ^ 63

instance (cdr : StructCdr) : Decidable cdr.Fits := inferInstanceAs (Decidable (_ ∧ _))

/-- The reader's `STRUCT_CDR`. -/
def readCdr (bytes : List (BitVec 8)) : StructCdr :=
  let numbers := unpack [8, 8, 2, 1, 1, 4] bytes
  { callid := BitVec.ofNat 64 (numbers.getD 0 0)
    time := (BitVec.ofNat 64 (numbers.getD 1 0)).toInt
    path := BitVec.ofNat 16 (numbers.getD 2 0)
    callflag := BitVec.ofNat 8 (numbers.getD 3 0)
    ruleflag := BitVec.ofNat 8 (numbers.getD 4 0)
    recv3 := BitVec.ofNat 32 (numbers.getD 5 0) }

/-- Records one behind the other. -/
def readCdrs : ℕ → List (BitVec 8) → List StructCdr
  | 0, _ => []
  | n + 1, bytes => readCdr (bytes.take 24) :: readCdrs n (bytes.drop 24)

/-- `sock_send_buf`: what it returns, and the bytes that the socket has taken. The list has what the calls of
`send` return one after the other; behind the list a call fails. -/
def sockSendBuf : List (BitVec 8) → List ℕ → ℤ × List (BitVec 8)
  | [], _ => (0, [])
  | _ :: _, [] => (-1, [])
  | b :: buf, ret :: rets =>
    let later := sockSendBuf ((b :: buf).drop ret) rets
    (later.1, (b :: buf).take ret ++ later.2)

/-- `cdr_send`: the ring behind it, its return value and what the socket has taken. -/
def cdrSendWire (g : StructCdrList) (header records : List ℕ) : StructCdrList × ℤ × List (BitVec 8) :=
  match cdrSend g with
  | (g, none) => (g, 0, [])
  | (g, some batch) =>
    let first := sockSendBuf batch.header header
    if first.1 = -1 then (g, -1, first.2)
    else
      let second := sockSendBuf (batch.records.flatMap StructCdr.bytes) records
      (g, second.1, first.2 ++ second.2)

/-- A frame of the protocol: the ring index of the first record, and the records. -/
structure CdrFrame where
  sendLen : BitVec 16
  records : List StructCdr
  small : records.length < 256
  fits : ∀ cdr ∈ records, cdr.Fits

/-- The records with their ring indices. -/
def CdrFrame.numbered (frame : CdrFrame) : List (BitVec 16 × StructCdr) :=
  frame.records.mapIdx fun i cdr => (frame.sendLen + BitVec.ofNat 16 i, cdr)

def CdrFrame.header (frame : CdrFrame) : List (BitVec 8) :=
  [0, 4, (frame.sendLen >>> 8).setWidth 8, (frame.sendLen &&& 0xff).setWidth 8, 0, BitVec.ofNat 8 frame.records.length]

def CdrFrame.bytes (frame : CdrFrame) : List (BitVec 8) := frame.header ++ frame.records.flatMap StructCdr.bytes

end Vpu.Model.Core
