import Vpu.Model.Core.CmdParser
import Vpu.Model.Core.FilePlay
import Vpu.Model.Core.ServPackets
import Vpu.Model.Core.Timeslots

/-! # The connections of the file server

`file_server_thread` gives each accepted connection to a `file_tx_thread` of its own, which reads one request and answers
it: with a recorded call, with the pictures of a fax, or by handing the connection to the timeslot of the requested
call. Every read of a file gives 1024 bytes or all that remain. The packets and visits on the timeslots stand beside the
requests, because they write to the connections that were handed over, and close them.
-/

namespace Vpu.Model.Core

open Blit

/-- What happens to a connection, by its descriptor. -/
inductive ConnEffect where
  | accept (fd : ℤ)
  | write (fd : ℤ) (bytes : List (BitVec 8))
  | close (fd : ℤ)

/-- `send_result` -/
def resultBytes (result : BitVec 16) : List (BitVec 8) := htons 2 ++ htons 2 ++ htons result

/-- `send_voice_size` -/
def voiceSizeBytes (size : BitVec 32) : List (BitVec 8) := htons 3 ++ htons 4 ++ htonl size

/-- `send_faxpic_size` -/
def faxpicSizeBytes (size : BitVec 32) : List (BitVec 8) := htons 4 ++ htons 4 ++ htonl size

def PlayEffect.conn (fd : ℤ) : PlayEffect → ConnEffect
  | .sendResult result => .write fd (resultBytes result)
  | .sendVoiceSize size => .write fd (voiceSizeBytes size)
  | .write bytes => .write fd bytes
  | .close => .close fd

def VoiceEffect.conn : VoiceEffect → List ConnEffect
  | .sendResult fd result => [.write fd (resultBytes result)]
  | .sendVoiceSize fd size => [.write fd (voiceSizeBytes size)]
  | .txWrite tx bytes _ => [.write tx.fd (bytes.map VoiceByte.byte)]
  | .txClose tx => [.close tx.fd]
  | _ => []

/-! ## The pictures of a fax -/

/-- `fax_pic_info_t` -/
structure FaxPicInfo where
  name : CString
  size : BitVec 32
deriving DecidableEq, Repr

/-- `snprintf(fname_tmp, MAX_DIRS_LEN, "%s.tif", filename_up)` -/
def faxPicName (filename : CString) : CString := (filename ++ ".tif".toList).take 255

/-- `get_fax_pic_info` with neither name NULL: the pictures, and `*data_size`. -/
def getFaxPicInfo (stat : CString → Option (BitVec 32)) (filename : Dir → CString) : List FaxPicInfo × BitVec 32 :=
  let pics := [Dir.up, .down].filterMap fun d =>
    (stat (faxPicName (filename d))).map fun size => (⟨faxPicName (filename d), size⟩ : FaxPicInfo)
  (pics, pics.foldl (fun dataSize pic => dataSize + (pic.size + 4)) 0)

/-- `while ((faxpic_len = read(faxpic_fd, faxpic_buf, 1024)) > 0)` over what is still unread. -/
def readBlocks (bytes : List (BitVec 8)) : List (List (BitVec 8)) :=
  if bytes.length = 0 then [] else bytes.take 1024 :: readBlocks (bytes.drop 1024)
termination_by bytes.length
decreasing_by
  rename_i some
  rw [List.length_drop]
  omega

/-- The encrypted size of a picture. -/
def faxpicHead (size : BitVec 32) : List (BitVec 8) := (htonl size).map (· ^^^ 0x53)

/-- One turn of the loop over the pictures. -/
def Recorded.sendPic (world : Recorded) (connfd : ℤ) (pic : FaxPicInfo) : List ConnEffect :=
  if world.opens pic.name = true then
    .write connfd (faxpicHead pic.size) :: (readBlocks ((world.contents pic.name).getD [])).map (.write connfd)
  else []

/-- The answer `send_result(0x00, connfd); close(connfd);` -/
def refuse (connfd : ℤ) : List ConnEffect := [.write connfd (resultBytes 0), .close connfd]

/-- The branch for `TYPE_FAX`. -/
def faxPlay (world : Recorded) (connfd : ℤ) (callid : BitVec 64) (scase : BitVec 16) : List ConnEffect :=
  let checked := world.check callid scase
  if checked.ret ≠ 0 then refuse connfd
  else
    let (faxPic, fileSize) := getFaxPicInfo world.stat checked.filename
    if faxPic.length = 0 then refuse connfd
    else
      [.write connfd (resultBytes 1), .write connfd (faxpicSizeBytes fileSize)] ++
        faxPic.flatMap (world.sendPic connfd) ++ [.close connfd]

/-! ## A request -/

/-- A request as `cmd_parser` has accepted it. -/
structure FileRequest where
  callid : BitVec 64
  scase : BitVec 16
  stime : BitVec 16
  stype : BitVec 16
deriving DecidableEq, Repr

/-- What `cmd_parser` makes of what one `read` returned. -/
def fileRequest (buf : ℕ → BitVec 8) (dataLen : ℤ) : Option FileRequest :=
  let run := cmdParser buf dataLen
  if run.ret ≠ 0 then none
  else
    match run.fields.callid, run.fields.scase, run.fields.stime, run.fields.stype with
    | some callid, some scase, some stime, some stype => some ⟨callid, scase, stime, stype⟩
    | _, _, _, _ => none

abbrev Slots := SlotPos → VoiceFile

/-- The branch for `REAL_TIME_PLAY`. -/
def realTimeTx (slots : Slots) (connfd : ℤ) (callid : BitVec 64) : Slots × List ConnEffect :=
  match getFileStruct callid with
  | none => (slots, refuse connfd)
  | some pos =>
    let (file, out) := realTimePlay connfd callid (slots pos)
    (Function.update slots pos file, out.flatMap VoiceEffect.conn)

/-- `file_tx_thread`, from its `read` on. A request of another time or type gets neither an answer nor a `close`. -/
def fileTxThread (world : Recorded) (slots : Slots) (connfd : ℤ) (buf : ℕ → BitVec 8) (dataLen : ℤ) :
    Slots × List ConnEffect :=
  match fileRequest buf dataLen with
  | none => (slots, refuse connfd)
  | some request =>
    if request.stype = 0 ∧ request.stime = 0 then
      (slots, (filePlay world request.callid request.scase).map (PlayEffect.conn connfd))
    else if request.stime = 1 then realTimeTx slots connfd request.callid
    else if request.stype = 1 then (slots, faxPlay world connfd request.callid request.scase)
    else (slots, [])

/-! ## The server beside the timeslots -/

inductive ServEvent where
  | packet (env : Outside) (pkt : ℕ → BitVec 8) (pktLen : ℕ)
  | visit (pos : SlotPos) (tim : ℤ)
  /-- `accept` returns `connfd`, and one `read` from it `dataLen` bytes of `buf`. -/
  | connect (world : Recorded) (connfd : ℤ) (buf : ℕ → BitVec 8) (dataLen : ℤ)

/-- The effects of a call on the timeslots, as the connections see them. -/
def callConn (e : CallEvent) (slots : Slots) : Slots × List ConnEffect :=
  let (slots, out) := slotsMachine.step slots e
  (slots, out.flatMap fun effect => effect.2.conn)

def servAct : ServEvent → Act Slots ConnEffect
  | .packet env pkt pktLen => callConn (.packet env pkt pktLen)
  | .visit pos tim => callConn (.visit pos tim)
  | .connect world connfd buf dataLen =>
    .seq (fun slots => (slots, [.accept connfd])) fun slots => fileTxThread world slots connfd buf dataLen

/-- All timeslots and the file server, one call or one request at a time and in any order. -/
def servMachine : EventMachine Slots ServEvent (List ConnEffect) := .ofActs servAct

end Vpu.Model.Core
