import Vpu.Model.Core.Cdr
import Vpu.ToMathlib.Blit

/-! # The thread that talks to the call-record server

`conn_cdr_thread` loops over one socket: it reconnects when the socket is gone, reassembles the
server's 4-byte frames from whatever `recv` returns and sends the next batch of records. One
`CdrTick` is one turn of the loop with all that the outside decides in it: the flags, the results
of `connect2cdr`, `select` and `recv` and those of the two socket writes. The thread's own
variables are kept as they are, `recv_data`, `recv_len` and `remain_len` outside the connection;
`history` only records what happened on each connection.
-/

namespace Vpu.Model.Core

open Blit

/-- One connection as it went: what `recv` returned on it and the `cdr_update_ack` calls made. -/
structure CdrConnection where
  bytes : List (BitVec 8)
  acks : List (BitVec 16)
deriving DecidableEq, Repr

structure ConnCdr where
  ring : StructCdrList
  running : Bool
  sockfd : ℤ
  connTimes : ℕ
  remainLen : ℕ
  recvLen : ℕ
  recvData : ℕ → BitVec 8
  /-- All connections so far, newest first. -/
  history : List CdrConnection

/-- What the outside decides in one turn of the loop. An empty `recv` is a result of 0 or less. -/
structure CdrTick where
  done : Bool
  reload : Bool
  connect : ℤ
  select : ℤ
  recv : List (BitVec 8)
  header : ℤ
  records : ℤ

/-- The thread before its loop. `recv_data` is not initialised. -/
def connCdrStart (recvData : ℕ → BitVec 8) : ConnCdr where
  ring := cdrInit
  running := true
  sockfd := -1
  connTimes := 0
  remainLen := 4
  recvLen := 0
  recvData
  history := []

namespace ConnCdr

def close (s : ConnCdr) : ConnCdr := { s with sockfd := -1 }

/-- A fresh socket; `cdr_reset_send` starts the handing out anew. -/
def opened (s : ConnCdr) (fd : ℤ) : ConnCdr :=
  { s with sockfd := fd, ring := cdrResetSend s.ring, history := ⟨[], []⟩ :: s.history }

/-- `connect2cdr` failed; `conn_times` only paces the log. -/
def connectFailed (s : ConnCdr) : ConnCdr :=
  { s with connTimes := if 60 ≤ s.connTimes + 1 then 0 else s.connTimes + 1 }

/-- `(para[0]<<8)+para[1]` -/
def ackValue (high low : BitVec 8) : BitVec 16 := BitVec.ofNat 16 (high.toNat * 256 + low.toNat)

/-- The four bytes are complete: command 5 carries an acknowledgement. -/
def handleFrame (s : ConnCdr) : ConnCdr :=
  let s :=
    if s.recvData 1 = 5 then
      let ack := ackValue (s.recvData 2) (s.recvData 3)
      { s with
        ring := cdrUpdateAck s.ring ack
        history := s.history.modifyHead fun c => { c with acks := c.acks ++ [ack] } }
    else s
  { s with remainLen := 4, recvLen := 0 }

/-- The readable branch of the loop. -/
def readable (s : ConnCdr) (recv : List (BitVec 8)) : ConnCdr :=
  if s.remainLen = 0 then s.handleFrame
  else if recv = [] then s.close
  else
    let s := { s with
      recvData := blit s.recvData s.recvLen recv
      remainLen := s.remainLen - recv.length
      recvLen := s.recvLen + recv.length
      history := s.history.modifyHead fun c => { c with bytes := c.bytes ++ recv } }
    if s.remainLen = 0 then s.handleFrame else s

/-- The end of a turn: the next batch goes out, and a failed write closes the socket. -/
def sendBatch (s : ConnCdr) (t : CdrTick) : ConnCdr :=
  if s.sockfd = -1 then s
  else
    let sent := { s with ring := (cdrSend s.ring).1 }
    if cdrSendResult (cdrSend s.ring).2 t.header t.records = 0 then sent else sent.close

def poll (s : ConnCdr) (t : CdrTick) : ConnCdr :=
  (if 0 < t.select then s.readable t.recv else s).sendBatch t

/-- Connect where there is no socket, and skip the rest of the turn where that fails. -/
def connectAndPoll (s : ConnCdr) (t : CdrTick) : ConnCdr :=
  if s.sockfd = -1 then
    if t.connect = -1 then s.connectFailed else (s.opened t.connect).poll t
  else s.poll t

/-- One turn of the loop. -/
def tick (s : ConnCdr) (t : CdrTick) : ConnCdr :=
  if s.running = false then s
  else if t.done then { s with running := false }
  else (if t.reload then s.close else s).connectAndPoll t

end ConnCdr

/-- Turns of the loop, and records that other threads insert between them. -/
inductive ConnCdrEvent where
  | tick (t : CdrTick)
  | insert (signal : StructCdr)

def connCdrNext (s : ConnCdr) : ConnCdrEvent → ConnCdr
  | .tick t => s.tick t
  | .insert signal => { s with ring := cdrInsert s.ring signal }

def connCdrMachine : EventMachine ConnCdr ConnCdrEvent Unit := ⟨fun s e => (connCdrNext s e, ())⟩

/-- `recv` returns at most the `remain_len` bytes it was asked for. -/
def recvFits (s : ConnCdr) : ConnCdrEvent → Prop
  | .tick t => t.recv.length ≤ s.remainLen
  | .insert _ => True

instance (s : ConnCdr) (e : ConnCdrEvent) : Decidable (recvFits s e) :=
  match e with
  | .tick t => inferInstanceAs (Decidable (t.recv.length ≤ s.remainLen))
  | .insert _ => inferInstanceAs (Decidable True)

end Vpu.Model.Core
