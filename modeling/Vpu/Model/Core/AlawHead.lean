import Vpu.ToMathlib.CLayout

/-! # The wave file of `decode_mem`

`ALAW_HEAD` is written as it lies in memory, with the direction's audio behind it. How the struct lies in memory
is the compiler's choice: `align` gives the alignment of a member of each size, and the bytes between two
members are those of the stack.
-/

namespace Vpu.Model.Core

open Blit CLayout

/-- `ALAW_HEAD` -/
structure AlawHead where
  chunkID : BitVec 32
  chunkSize : BitVec 32
  format : BitVec 32
  subChunk1ID : BitVec 32
  subChunk1Size : BitVec 32
  audioFormat : BitVec 16
  numChannels : BitVec 16
  sampleRate : BitVec 32
  byteRate : BitVec 32
  blockAlign : BitVec 16
  bitsPerSample : BitVec 32
  waveFact : BitVec 32
  temp1 : BitVec 32
  temp2 : BitVec 32
  dataTag : BitVec 32
  dataLen : BitVec 32

/-- The members in the order of their declaration. -/
def AlawHead.members (head : AlawHead) : List (List (BitVec 8)) :=
  [toLE 4 head.chunkID.toNat, toLE 4 head.chunkSize.toNat, toLE 4 head.format.toNat, toLE 4 head.subChunk1ID.toNat,
    toLE 4 head.subChunk1Size.toNat, toLE 2 head.audioFormat.toNat, toLE 2 head.numChannels.toNat,
    toLE 4 head.sampleRate.toNat, toLE 4 head.byteRate.toNat, toLE 2 head.blockAlign.toNat,
    toLE 4 head.bitsPerSample.toNat, toLE 4 head.waveFact.toNat, toLE 4 head.temp1.toNat, toLE 4 head.temp2.toNat,
    toLE 4 head.dataTag.toNat, toLE 4 head.dataLen.toNat]

/-- `init_alaw_head` -/
def initAlawHead (head : AlawHead) : AlawHead :=
  { head with
    chunkID := 0x46464952
    format := 0x45564157
    subChunk1ID := 0x20746d66
    subChunk1Size := 0x12
    audioFormat := 0x06
    numChannels := 0x01
    sampleRate := 0x1f40
    byteRate := 0x1f40
    blockAlign := 0x01
    bitsPerSample := 0x08
    waveFact := 0x74636166
    temp1 := 0x04
    temp2 := 0x075300
    dataTag := 0x61746164 }

/-- The head that `decode_mem` writes. -/
def decodeMemHead (head : AlawHead) (length : BitVec 32) : AlawHead :=
  { initAlawHead head with chunkSize := length + 50, dataLen := length }

/-- The file that `decode_mem` has written when it calls `decode_alaw`. `stack` and `head` are what `alaw_head` holds
at first; `length` is an `int` that is not negative. -/
def decodeMemFile (align : ℕ → ℕ) (stack : ℕ → BitVec 8) (head : AlawHead) (buf : ℕ → BitVec 8)
    (length : BitVec 32) : List (BitVec 8) :=
  image align stack (decodeMemHead head length).members ++ window buf 0 length.toNat

/-- The x86-64 ABI: a member of 2 or 4 bytes is aligned to its size. -/
def naturalAlign (size : ℕ) : ℕ := max 1 size

end Vpu.Model.Core
