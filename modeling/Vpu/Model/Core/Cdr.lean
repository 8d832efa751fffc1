import Vpu.Machine.Run
import Mathlib.Data.BitVec

/-! # The call-record ring of `send_cdr.c`

`g_cdr_buff` stores 65536 call records behind three 16-bit counters that wrap: `ack` is the last
acknowledged entry, `send` the next one to hand out and `wait` the next free one. Each function
here is one section under the ring's mutex. `cdrSend` is the section that copies a batch out of
the ring; what the two socket writes then do is `cdrSendResult`.
-/

namespace Vpu.Model.Core

/-- `STRUCT_CDR`, one call record. -/
structure StructCdr where
  callid : BitVec 64
  time : ℤ
  path : BitVec 16
  callflag : BitVec 8
  ruleflag : BitVec 8
  recv3 : BitVec 32
deriving DecidableEq, Repr, Inhabited

/-- The all-zero record that `memset` leaves. -/
def StructCdr.zero : StructCdr := ⟨0, 0, 0, 0, 0, 0⟩

/-- The literal 65536 of the source. It stays folded so that no proof enumerates the ring. -/
def cdrBufNum : ℕ := 65536

theorem cdrBufNum_eq : cdrBufNum = 65536 := rfl

/-- `STRUCT_CDR_LIST` without its mutex. -/
structure StructCdrList where
  cdrBuf : Vector StructCdr cdrBufNum
  ack : BitVec 16
  send : BitVec 16
  wait : BitVec 16

theorem StructCdrList.wait_lt (g : StructCdrList) : g.wait.toNat < cdrBufNum := g.wait.isLt

def cdrInit : StructCdrList where
  cdrBuf := Vector.replicate cdrBufNum StructCdr.zero
  ack := 0
  send := 1
  wait := 1

/-- The overflow branch of `cdr_insert`: the oldest entry is given up, and `send` moves along
where it pointed at that entry. -/
def cdrOverflow (g : StructCdrList) : StructCdrList :=
  if g.wait = g.ack then
    let g := { g with ack := g.ack + 1 }
    if g.ack = g.send then { g with send := g.send + 1 } else g
  else g

theorem cdrOverflow_of_room {g : StructCdrList} (room : g.wait ≠ g.ack) : cdrOverflow g = g :=
  if_neg room

theorem cdrOverflow_of_sent {g : StructCdrList} (full : g.wait = g.ack) (sent : g.ack + 1 ≠ g.send) :
    cdrOverflow g = { g with ack := g.ack + 1 } :=
  (if_pos full).trans (if_neg sent)

/-- `cdr_insert`: all six fields of the record are copied. -/
def cdrInsert (g : StructCdrList) (signal : StructCdr) : StructCdrList :=
  let g := cdrOverflow g
  { g with
    cdrBuf := g.cdrBuf.set g.wait.toNat signal g.wait_lt
    wait := g.wait + 1 }

/-- What one `cdr_send` puts on the wire: the ring index of the first record, the number of
records and the records. -/
structure CdrBatch where
  sendLen : BitVec 16
  num : BitVec 16
  records : List StructCdr
deriving DecidableEq, Repr

/-- The six header bytes `buf[0..5]`. -/
def CdrBatch.header (batch : CdrBatch) : List (BitVec 8) :=
  [0, 4, (batch.sendLen >>> 8).setWidth 8, (batch.sendLen &&& 0xff).setWidth 8, 0,
    batch.num.setWidth 8]

/-- The batch size before it is cut to 16: up to the end of the storage, or up to `wait`. -/
def cdrSendNum (g : StructCdrList) : BitVec 16 :=
  if g.wait < g.send then BitVec.ofNat 16 (65536 - g.send.toNat) else g.wait - g.send

/-- The section of `cdr_send` under the mutex. The copy is the `memcpy` of `num` consecutive
entries, so entries past the end of the storage would be missing from it. -/
def cdrSend (g : StructCdrList) : StructCdrList × Option CdrBatch :=
  if g.send = g.wait then (g, none)
  else
    let num := if 16 < cdrSendNum g then 16 else cdrSendNum g
    ({ g with send := g.send + num },
      some ⟨g.send, num, (g.cdrBuf.toList.drop g.send.toNat).take num.toNat⟩)

/-- The return value of `cdr_send`, given those of `sock_send_buf` for the header and the records. -/
def cdrSendResult (batch : Option CdrBatch) (header records : ℤ) : ℤ :=
  match batch with
  | none => 0
  | some _ => if header = -1 then -1 else if records = -1 then -1 else 0

/-- `cdr_update_ack`: both distances are taken modulo 65536. -/
def cdrUpdateAck (g : StructCdrList) (ack : BitVec 16) : StructCdrList :=
  let sendNum := g.send - 1 - g.ack
  let ackNum := ack - g.ack
  if ackNum ≤ sendNum then { g with ack := ack } else g

def cdrResetSend (g : StructCdrList) : StructCdrList := { g with send := g.ack + 1 }

/-- The four operations other threads and the CDR connection perform on the ring. -/
inductive CdrOp where
  | insert (signal : StructCdr)
  | send
  | updateAck (ack : BitVec 16)
  | resetSend
deriving DecidableEq, Repr

def cdrStep (g : StructCdrList) : CdrOp → StructCdrList × Option CdrBatch
  | .insert signal => (cdrInsert g signal, none)
  | .send => cdrSend g
  | .updateAck ack => (cdrUpdateAck g ack, none)
  | .resetSend => (cdrResetSend g, none)

/-- The ring as a machine: an event is an operation, an observation the batch handed out. -/
def cdrMachine : EventMachine StructCdrList CdrOp (Option CdrBatch) := ⟨cdrStep⟩

end Vpu.Model.Core
