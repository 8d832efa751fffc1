import Vpu.Model.Core.VoiceParser

/-! # The counts of a slot as machine words

`data_count_up` and `fax_data_len_up` are `uint32_t`, the length of a packet's payload is `uint16_t`,
and `write_voice_file` keeps the length of its block in an `int`. `storeWords` computes the copies of a
packet in these words, where a difference below zero wraps around.
-/

namespace Vpu.Model.Core

/-- `data_up` or `data_down`, and `buf_up` or `buf_down` of the node. -/
inductive CopyDest where
  | data
  | buf
deriving DecidableEq, Repr

def CopyDest.size : CopyDest → ℕ
  | .data => voiceBufLen
  | .buf => faxBufSize

/-- A `memcpy` of `len` bytes to the offset `off`. -/
structure VoiceCopy where
  dest : CopyDest
  off : ℕ
  len : ℕ
deriving DecidableEq, Repr

structure SideWords where
  dataCount : BitVec 32
  faxDataLen : BitVec 32
deriving DecidableEq, Repr

namespace SideWords

/-- `data_buf_left` -/
def dataBufLeft (side : SideWords) : BitVec 32 := 8192#32 - side.dataCount

/-- `data_len = data_buf_left < data_len ? data_buf_left : data_len;` -/
def cutToData (side : SideWords) (dataLen : BitVec 16) : BitVec 16 :=
  if side.dataBufLeft < dataLen.setWidth 32 then side.dataBufLeft.setWidth 16 else dataLen

/-- `fax_buf_left_up`, or its sibling. -/
def faxBufLeft (side : SideWords) : BitVec 32 := 524288#32 - side.faxDataLen

/-- `data_len = data_len < fax_buf_left_up ? data_len : fax_buf_left_up;` -/
def cutToFax (side : SideWords) (dataLen : BitVec 16) : BitVec 16 :=
  if dataLen.setWidth 32 < side.faxBufLeft then dataLen else side.faxBufLeft.setWidth 16

/-- The counts behind a packet and its copies; `encrypt_voice` runs over the first of them. -/
def storeWords (side : SideWords) (hasNode : Bool) (dataLen : BitVec 16) : SideWords × List VoiceCopy :=
  let dataLen := side.cutToData dataLen
  let stored := { side with dataCount := side.dataCount + dataLen.setWidth 32 }
  let copy : VoiceCopy := ⟨.data, side.dataCount.toNat, dataLen.toNat⟩
  if hasNode = true ∧ side.faxDataLen < 524288#32 then
    let faxLen := side.cutToFax dataLen
    ({ stored with faxDataLen := side.faxDataLen + faxLen.setWidth 32 },
      [copy, ⟨.buf, side.faxDataLen.toNat, faxLen.toNat⟩])
  else (stored, [copy])

end SideWords

/-- `data_len` of `write_voice_file` as the count that `fwrite` is given. -/
def writeLen (dataCountUp dataCountDown : BitVec 32) : BitVec 64 :=
  let dataLen := if dataCountDown < dataCountUp then dataCountUp else dataCountDown
  let dataLen := if (8192#32).slt dataLen then 8192#32 else dataLen
  dataLen.signExtend 64

end Vpu.Model.Core
