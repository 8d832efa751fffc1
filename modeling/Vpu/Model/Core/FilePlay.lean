import Vpu.Model.Core.FileServer
import Vpu.ToMathlib.Interleave

/-! # Playing a recorded call

The branch of `file_tx_thread` for `TYPE_VOICE` and `NON_REAL_TIME_PLAY`. A file is its bytes; `stat`
gives their number and a `read` the next 1024 of them or all that remain. Nothing here waits or fails
once both files are open.
-/

namespace Vpu.Model.Core

open Interleave

/-- What the listener's connection gets. -/
inductive PlayEffect where
  | sendResult (result : BitVec 16)
  | sendVoiceSize (size : BitVec 32)
  | write (bytes : List (BitVec 8))
  | close
deriving DecidableEq, Repr

/-- The file system and the tables that a request is answered from. -/
structure Recorded where
  localtime : ℤ → Option Tm
  /-- The contents of the regular file of this name. -/
  contents : CString → Option (List (BitVec 8))
  /-- Whether `open` succeeds. -/
  opens : CString → Bool
  fileDirs : FileDirsInfo

/-- `st_size`, cut to `uint32_t`. -/
def Recorded.stat (world : Recorded) (name : CString) : Option (BitVec 32) :=
  (world.contents name).map fun bytes => BitVec.ofNat 32 bytes.length

/-- The loop over blocks, from the bytes that are still unread in the two files. -/
def playLoop (up down : List (BitVec 8)) : List PlayEffect :=
  let fileup := up.take 1024
  let filedown := down.take 1024
  if fileup.length ≠ filedown.length ∨ fileup.length = 0 ∨ filedown.length = 0 then []
  else .write (interleave fileup filedown) :: playLoop (up.drop 1024) (down.drop 1024)
termination_by up.length
decreasing_by
  rename_i continues
  have read : (up.take 1024).length ≠ 0 := (not_or.mp (not_or.mp continues).2).1
  rw [List.length_take] at read
  rw [List.length_drop]
  omega

/-- `check_voice_file` with the thread's empty name buffers. -/
def Recorded.check (world : Recorded) (callid : BitVec 64) (scase : BitVec 16) : CheckedFile :=
  checkVoiceFile world.localtime world.stat world.fileDirs callid scase fun _ => []

/-- The branch of `file_tx_thread` for recorded voice. -/
def filePlay (world : Recorded) (callid : BitVec 64) (scase : BitVec 16) : List PlayEffect :=
  let checked := world.check callid scase
  if checked.ret ≠ 0 then [.sendResult 0, .close]
  else if ¬ (world.opens (checked.filename .up) ∧ world.opens (checked.filename .down)) then
    [.sendResult 0, .close]
  else
    [.sendResult 1, .sendVoiceSize (checked.fileSize.getD 0)] ++
      playLoop ((world.contents (checked.filename .up)).getD [])
        ((world.contents (checked.filename .down)).getD []) ++ [.close]

end Vpu.Model.Core
