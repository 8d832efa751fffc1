import Vpu.Model.Core.Cdr
import Vpu.Machine.Act
import Vpu.ToMathlib.Blit

/-! # The call records of `voice_parser.h`

`VoiceFile` is `voice_file_info_t`, the state of one timeslot. Its fields ending in `_up` and
`_down` are the two `VoiceSide`s of a `Dir`. What the code does outside the slot is a
`VoiceEffect`; what it learns from outside during one call is an `Outside`. A buffer cell keeps
beside its byte which call it belongs to and whether it is a voice byte or was only cleared;
no function reads these two.
-/

namespace Vpu.Model.Core

/-- The characters of a C string before its terminator. -/
abbrev CString := List Char

inductive Dir where
  | up
  | down
deriving DecidableEq, Repr

/-- The direction a packet's `calldir` selects. -/
def Dir.ofCalldir (calldir : BitVec 8) : Dir := if calldir = 1 then .up else .down

/-- One cell of `data_up` or `data_down`. -/
structure VoiceByte where
  byte : BitVec 8
  callid : BitVec 64
  filler : Bool
deriving DecidableEq, Repr

/-- A cell cleared when the slot was taken over for a call. -/
def VoiceByte.cleared (callid : BitVec 64) : VoiceByte := ⟨0, callid, true⟩

/-- `VOICE_BUF_SIZE * MAX_BUF_NUM` -/
def voiceBufLen : ℕ := 8192

/-- `FAX_BUF_SIZE` -/
def faxBufSize : ℕ := 524288

/-- `STRUCT_CDR_PATH`, a node of the fax queues, by its address. -/
structure FaxNode where
  addr : ℕ
  cdr : StructCdr
  buf : Dir → ℕ → BitVec 8

/-- The node after `memset(file->cdr_node, 0, sizeof(STRUCT_CDR_PATH))`. -/
def FaxNode.cleared (node : FaxNode) : FaxNode := ⟨node.addr, .zero, fun _ _ => 0⟩

/-- `tx_fd`, with the callid that its listener asked for. -/
structure TxConn where
  fd : ℤ
  callid : BitVec 64
deriving DecidableEq, Repr

def TxConn.none : TxConn := ⟨0, 0⟩

/-- The fields of one direction. `fp` is the name of the open file. -/
structure VoiceSide where
  filename : CString
  data : ℕ → VoiceByte
  dataCount : ℕ
  fp : Option CString
  no : BitVec 8
  lost : BitVec 32
  faxDataLen : ℕ
  endFlag : Bool

structure VoiceFile where
  callid : BitVec 64
  side : Dir → VoiceSide
  caseMark : BitVec 8
  dataMark : BitVec 8
  tx : TxConn
  cdrNode : Option FaxNode
  cdr : StructCdr
  updateTime : ℤ

/-- `memset(file, 0, sizeof(voice_file_info_t))`, done for this call. -/
def VoiceFile.cleared (callid : BitVec 64) : VoiceFile where
  callid := 0
  side := fun _ => ⟨[], fun _ => .cleared callid, 0, none, 0, 0, 0, false⟩
  caseMark := 0
  dataMark := 0
  tx := .none
  cdrNode := none
  cdr := .zero
  updateTime := 0

/-- The counters of `counter.h` that calls move. -/
inductive Counter where
  | callStart
  | callEnd
  | callOnline
  | callTimeout
  | fileOk
  | fileFail
  | faxLost
  | faxEnqueue
deriving DecidableEq, Repr

inductive VoiceEffect where
  | add (c : Counter)
  | sub (c : Counter)
  | setFileDirNo (n : BitVec 32)
  | fopen (d : Dir) (name : CString) (ok : Bool)
  | fwrite (d : Dir) (name : CString) (block : List VoiceByte)
  | fclose (d : Dir) (name : CString)
  | sendResult (connfd : ℤ) (result : BitVec 16)
  | sendVoiceSize (connfd : ℤ) (size : BitVec 32)
  /-- `write` on the listener's connection, with its return value. -/
  | txWrite (tx : TxConn) (bytes : List VoiceByte) (ret : ℤ)
  | txClose (tx : TxConn)
  | fetchEq
  | enqueueFq (node : FaxNode)
  | cdrInsert (cdr : StructCdr)
  /-- The slot was taken over for this call. Like the next two this only marks a place. -/
  | started (callid : BitVec 64)
  /-- These cells were copied into the buffer of this direction. -/
  | stored (d : Dir) (bytes : List VoiceByte)
  /-- Both buffers have been written to the files that are open. -/
  | flushed

/-- `file_dirs_node_t` -/
structure FileDirsNode where
  dirName : CString
  diskNum : BitVec 8
  writeFlag : BitVec 8

/-- `file_dirs_info_t`, the table by its memory. -/
structure FileDirsInfo where
  dirs : ℕ → FileDirsNode
  num : BitVec 32

/-- `struct tm` as far as names use it. -/
structure Tm where
  tmYear : ℤ
  tmMon : ℤ
  tmMday : ℤ
deriving DecidableEq, Repr

/-- The two places where `send_voice_data` is called. -/
inductive SendSite where
  | full
  | finish
deriving DecidableEq, Repr

/-- What the outside answers during one call. -/
structure Outside where
  /-- `time(NULL)` at the head of `voice_parser`. -/
  now : ℤ
  /-- `time(NULL)` for the call record. -/
  cdrTime : ℤ
  localtime : ℤ → Option Tm
  /-- `stat` finds a regular file of this name. -/
  isRegular : CString → Bool
  fopen : Dir → Bool
  txWrite : SendSite → ℤ
  fileDirs : FileDirsInfo
  fileDirNo : BitVec 32
  /-- The head of the queue of empty nodes. -/
  eqHead : Option FaxNode

namespace VoiceFile

/-- Change one direction. -/
def setSide (file : VoiceFile) (d : Dir) (side : VoiceSide) : VoiceFile :=
  { file with side := Function.update file.side d side }

@[simp] theorem setSide_side (file : VoiceFile) (d : Dir) (side : VoiceSide) :
    (file.setSide d side).side = Function.update file.side d side := rfl

/-- Change both directions alike. -/
def mapSides (file : VoiceFile) (f : VoiceSide → VoiceSide) : VoiceFile :=
  { file with side := fun d => f (file.side d) }

end VoiceFile

end Vpu.Model.Core
