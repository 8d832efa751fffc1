import Vpu.Model.Core.VoiceName

/-! # `voice_parser.c` on one timeslot

Every function is an `Act` on the slot. `voice_parser` first decodes the packet, then takes the slot
over if the packet belongs to another call, records the payload in its direction, and
ends the call if both directions have ended. `cycle_thread` looks at the slot from time to
time and `file_tx_thread` attaches a listener to it.
-/

namespace Vpu.Model.Core

open Blit

abbrev VoiceAct := Act VoiceFile VoiceEffect

namespace VoiceFile

/-- The number of bytes `write_voice_file` writes: the larger count, for both directions. -/
def blockLen (file : VoiceFile) : ℕ :=
  min (max (file.side .up).dataCount (file.side .down).dataCount) voiceBufLen

def writeSide (file : VoiceFile) (d : Dir) : List VoiceEffect :=
  match (file.side d).fp with
  | none => []
  | some name => [.fwrite d name (window (file.side d).data 0 file.blockLen)]

def closeSide (file : VoiceFile) (d : Dir) : List VoiceEffect :=
  match (file.side d).fp with
  | none => []
  | some name => [.fclose d name]

/-- The interleaving `mix_buf`. -/
def mixBuf (file : VoiceFile) : List VoiceByte :=
  (List.range voiceBufLen).flatMap (fun i => [(file.side .up).data i, (file.side .down).data i])

end VoiceFile

/-- `write_voice_file`. The counts stay. -/
def writeVoiceFile : VoiceAct := fun file =>
  (file, file.writeSide .up ++ file.writeSide .down ++ [.flushed])

/-- `close_voice_file` -/
def closeVoiceFile : VoiceAct := fun file =>
  (file.mapSides fun side => { side with fp := none }, file.closeSide .up ++ file.closeSide .down)

/-- `close(file->tx_fd); file->tx_fd = 0;` -/
def closeTx : VoiceAct := fun file => ({ file with tx := .none }, [.txClose file.tx])

/-- `send_voice_data`: the whole buffers, whatever the counts. A short write closes the connection. -/
def sendVoiceData (env : Outside) (site : SendSite) : VoiceAct :=
  .when (fun file => 0 < file.tx.fd) <|
    .seq (fun file => (file, [.txWrite file.tx file.mixBuf (env.txWrite site)])) <|
      .when (fun _ => env.txWrite site ≠ 2 * voiceBufLen) closeTx

/-- The node with the call's record goes to the fax queue. -/
def handOver : VoiceAct := fun file =>
  match file.cdrNode with
  | none => (file, [])
  | some node =>
    ({ file with cdrNode := none }, [.enqueueFq { node with cdr := file.cdr }, .add .faxEnqueue])

/-- `if (file->tx_fd > 0) { close(file->tx_fd); file->tx_fd = 0; }` -/
def closeListener : VoiceAct := .when (fun file => 0 < file.tx.fd) closeTx

/-- The call that a slot still has when it is cleaned up. -/
def timeOutCall : VoiceAct :=
  .when (fun file => file.callid ≠ 0) fun file =>
    ({ file with callid := 0 }, [.add .callTimeout, .add .callEnd, .sub .callOnline])

/-- The files that a slot still has when it is cleaned up. -/
def closeLeftFiles : VoiceAct :=
  .when (fun file => (file.side .up).fp ≠ none ∨ (file.side .down).fp ≠ none)
    (.seq writeVoiceFile closeVoiceFile)

/-- `file->up_no = 0; file->down_no = 0;` -/
def resetNos : VoiceAct := .modify fun file => file.mapSides fun side => { side with no := 0 }

/-- `cleanup_file_struct` -/
def cleanupFileStruct : VoiceAct :=
  .seq timeOutCall <| .seq closeLeftFiles <| .seq closeListener <| .seq resetNos handOver

/-- `open_voice_file` with its return value. -/
def openVoiceFile (env : Outside) (file : VoiceFile) : ℤ × VoiceFile × List VoiceEffect :=
  if (file.side .up).fp ≠ none ∨ (file.side .down).fp ≠ none then (-1, file, [])
  else
    match getFilename env file with
    | (ret, file, out) =>
      if ret ≠ 0 then (-1, file, out)
      else
        (if env.fopen .up && env.fopen .down then 0 else -1,
          { file with side := fun d => { file.side d with
              fp := if env.fopen d then some (file.side d).filename else none } },
          out ++ [.fopen .up (file.side .up).filename (env.fopen .up),
            .fopen .down (file.side .down).filename (env.fopen .down)])

/-- What `voice_parser` reads from the head of a packet. -/
structure VoiceHeader where
  callid : BitVec 64
  calldir : BitVec 8
  ccase : BitVec 8
  dataMark : BitVec 8
  dataNo : BitVec 8
  dataLen : ℕ
deriving DecidableEq, Repr

/-- `memcpy(&callid, pkt + 20, 8)` on a little-endian machine. -/
def pktCallid (pkt : ℕ → BitVec 8) : BitVec 64 :=
  BitVec.ofNat 64 (((List.range 8).map fun i => (pkt (20 + i)).toNat * 256 ^ i).sum)

/-- The checks and reads before the slot is looked up. -/
def parseHeader (pkt : ℕ → BitVec 8) (pktLen : ℕ) : Except ℤ VoiceHeader :=
  if pktLen < 36 ∨ pkt 16 ≠ 0x03 then .error (-1)
  else
    let dataLen := (pkt 35).toNat * 256 + (pkt 36).toNat
    if 1024 < dataLen then .error (-2)
    else .ok ⟨pktCallid pkt, pkt 28, pkt 29, pkt 33, pkt 34, dataLen⟩

/-- A fresh node for the fax decoder, or a record without one. -/
def takeNode (env : Outside) : VoiceAct := fun file =>
  let file := file.mapSides fun side => { side with faxDataLen := 0 }
  match env.eqHead with
  | some node =>
    ({ file with cdrNode := some node.cleared }, [.add .fileOk, .fetchEq])
  | none =>
    ({ file with cdrNode := none }, [.add .fileOk, .fetchEq, .add .faxLost, .cdrInsert file.cdr])

/-- The fields of a slot that begins this call. -/
def VoiceFile.begun (env : Outside) (h : VoiceHeader) : VoiceFile :=
  { VoiceFile.cleared h.callid with
    callid := h.callid
    caseMark := h.ccase
    dataMark := h.dataMark
    side := fun d => { (VoiceFile.cleared h.callid).side d with no := 1 }
    cdr := { StructCdr.zero with callid := h.callid, time := env.cdrTime, ruleflag := h.ccase } }

/-- The files of the new call are opened; without both of them it gets no node. -/
def openCall (env : Outside) : VoiceAct := fun file =>
  match openVoiceFile env file with
  | (ret, file, out) =>
    if ret = 0 then ((takeNode env file).1, out ++ (takeNode env file).2)
    else (file, out ++ [.add .fileFail])

/-- The slot is taken over for the call of this packet. -/
def startCall (env : Outside) (h : VoiceHeader) : VoiceAct :=
  .seq cleanupFileStruct <|
  .seq (fun _ => (VoiceFile.begun env h, [.started h.callid, .add .callStart, .add .callOnline])) <|
  openCall env

/-- `up_no` and `up_lost`, or their siblings. -/
def countPacket (d : Dir) (dataNo : BitVec 8) (file : VoiceFile) : VoiceFile :=
  let side := file.side d
  file.setSide d { side with
    lost := if side.no ≠ dataNo then side.lost + 1 else side.lost
    no := dataNo + 1 }

/-- A full buffer goes to the listener and to the files, and both directions start anew. -/
def flushIfFull (env : Outside) (d : Dir) : VoiceAct :=
  .when (fun file => voiceBufLen ≤ (file.side d).dataCount) <|
    .seq (sendVoiceData env .full) <|
    .seq writeVoiceFile <|
    .modify fun file => file.mapSides fun side => { side with dataCount := 0 }

/-- The room left in `data_up` or `data_down`. -/
def VoiceSide.room (side : VoiceSide) : ℕ := voiceBufLen - side.dataCount

/-- `encrypt_voice` on the bytes of one call. -/
def encryptVoice (callid : BitVec 64) (bytes : List (BitVec 8)) : List VoiceByte :=
  bytes.map fun b => ⟨b ^^^ 0x53, callid, false⟩

/-- The copy into `data_up` or `data_down`. -/
def storeVoice (d : Dir) (callid : BitVec 64) (bytes : List (BitVec 8)) : VoiceAct := fun file =>
  let side := file.side d
  (file.setSide d { side with
      data := blit side.data side.dataCount (encryptVoice callid bytes)
      dataCount := side.dataCount + bytes.length },
    [.stored d (encryptVoice callid bytes)])

/-- `if (data_mark == 0x02) file->up_end_flag = 1;` -/
def markEnd (d : Dir) (dataMark : BitVec 8) (file : VoiceFile) : VoiceFile :=
  if dataMark = 0x02 then file.setSide d { file.side d with endFlag := true } else file

/-- The copy of the stored bytes into the fax buffer, as far as it has room. -/
def storeFax (d : Dir) (bytes : List (BitVec 8)) (file : VoiceFile) : VoiceFile :=
  match file.cdrNode with
  | none => file
  | some node =>
    let side := file.side d
    if side.faxDataLen < faxBufSize then
      let bytes := bytes.take (faxBufSize - side.faxDataLen)
      { file.setSide d { side with faxDataLen := side.faxDataLen + bytes.length } with
        cdrNode := some { node with
          buf := Function.update node.buf d (blit (node.buf d) side.faxDataLen bytes) } }
    else file

/-- The copies of one packet: the payload behind the header, cut to the room left. -/
def storePacket (pkt : ℕ → BitVec 8) (h : VoiceHeader) (d : Dir) : VoiceAct := fun file =>
  let bytes := window pkt 37 (min (file.side d).room h.dataLen)
  Act.seq (storeVoice d h.callid bytes)
    (.modify fun file => storeFax d bytes (markEnd d h.dataMark file)) file

/-- The branch of `calldir`. -/
def recordPacket (env : Outside) (pkt : ℕ → BitVec 8) (h : VoiceHeader) : VoiceAct :=
  let d := Dir.ofCalldir h.calldir
  .seq (.modify (countPacket d h.dataNo)) <| .seq (flushIfFull env d) <| storePacket pkt h d

/-- Both directions have ended. -/
def VoiceFile.Ended (file : VoiceFile) : Prop :=
  (file.side .up).endFlag = true ∧ (file.side .down).endFlag = true

instance (file : VoiceFile) : Decidable file.Ended := inferInstanceAs (Decidable (_ ∧ _))

/-- The slot fields that the end of a call resets first. -/
def VoiceFile.ended (file : VoiceFile) : VoiceFile :=
  { file.mapSides fun side => { side with endFlag := false, no := 0 } with
    updateTime := 0
    callid := 0 }

/-- The branch of `voice_parser` behind `up_end_flag == 1 && down_end_flag == 1`. -/
def endCall (env : Outside) : VoiceAct :=
  .seq (.modify VoiceFile.ended) <| .seq (sendVoiceData env .finish) <| .seq writeVoiceFile <|
  .seq closeVoiceFile <| .seq (fun file => (file, [.add .callEnd, .sub .callOnline])) <|
  .seq closeListener handOver

/-- The packet's call began 18000 seconds ago or more. -/
def Outside.tooOld (env : Outside) (callid : BitVec 64) : Prop := 18000 ≤ env.now - callTime callid

instance (env : Outside) (callid : BitVec 64) : Decidable (env.tooOld callid) :=
  inferInstanceAs (Decidable (_ ≤ _))

/-- A packet of an old call on a slot without a call is dropped. -/
def VoiceFile.Drops (file : VoiceFile) (env : Outside) (callid : BitVec 64) : Prop :=
  env.tooOld callid ∧ file.callid = 0

instance (file : VoiceFile) (env : Outside) (callid : BitVec 64) : Decidable (file.Drops env callid) :=
  inferInstanceAs (Decidable (_ ∧ _))

/-- `if (file->update_time - c_time >= 18000)` on a slot with a call. -/
def markTooOld (env : Outside) (callid : BitVec 64) (file : VoiceFile) : VoiceFile :=
  if env.tooOld callid then file.mapSides fun side => { side with endFlag := true } else file

/-- `voice_parser` behind the checks of the packet. -/
def acceptPacket (env : Outside) (pkt : ℕ → BitVec 8) (h : VoiceHeader) : VoiceAct :=
  .seq (.modify fun file => { file with updateTime := env.now }) <|
  .when (fun file => ¬ file.Drops env h.callid) <|
  .seq (.modify (markTooOld env h.callid)) <|
  .seq (.when (fun file => file.callid ≠ h.callid) (startCall env h)) <|
  .seq (recordPacket env pkt h) <|
  .when VoiceFile.Ended (endCall env)

/-- `voice_parser` on the slot that `get_file_struct` found, with its return value. -/
def voiceParser (env : Outside) (pkt : ℕ → BitVec 8) (pktLen : ℕ) (file : VoiceFile) :
    ℤ × VoiceFile × List VoiceEffect :=
  match parseHeader pkt pktLen with
  | .error code => (code, file, [])
  | .ok h => (0, acceptPacket env pkt h file)

/-- The visit of `cycle_thread` to one slot at the time `tim`. -/
def cycleVisit (tim : ℤ) : VoiceAct :=
  .when (fun file => file.updateTime ≠ 0 ∧ 60 ≤ tim - file.updateTime) <|
    .seq cleanupFileStruct (.modify fun file => { file with updateTime := 0 })

/-- The real-time branch of `file_tx_thread` on the slot of the requested callid. -/
def realTimePlay (connfd : ℤ) (callid : BitVec 64) : VoiceAct := fun file =>
  if 0 < file.tx.fd then (file, [.sendResult connfd 0, .txClose ⟨connfd, callid⟩])
  else ({ file with tx := ⟨connfd, callid⟩ },
    [.sendResult connfd 1, .sendVoiceSize connfd 0xffffffff])

/-- What happens to one timeslot. -/
inductive SlotEvent where
  | packet (env : Outside) (pkt : ℕ → BitVec 8) (pktLen : ℕ)
  | visit (tim : ℤ)
  | listen (connfd : ℤ) (callid : BitVec 64)

def slotAct : SlotEvent → VoiceAct
  | .packet env pkt pktLen => fun file => (voiceParser env pkt pktLen file).2
  | .visit tim => cycleVisit tim
  | .listen connfd callid => realTimePlay connfd callid

/-- One timeslot as a machine that emits its effects, whatever the outside answers. -/
def slotMachine : EventMachine VoiceFile SlotEvent (List VoiceEffect) := .ofActs slotAct

end Vpu.Model.Core
