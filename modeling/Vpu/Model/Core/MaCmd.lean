import Vpu.ToMathlib.Blit
import Mathlib.Data.BitVec

/-! # The commands of the management agent

`conn_ma` reads from a stream socket into one buffer and hands what one `read` returned to
`ma_cmd_parser`, which takes commands off its front while 8 bytes or more seem to be left. The
remaining length is unsigned, so it grows past 2^31 when a command claims more bytes than
there are; `none` is the case that the parser then reads a header outside the buffer.
-/

namespace Vpu.Model.Core

open Blit

/-- A command as the agent sends it. The header's `len` counts header and payload in 16 bits. -/
structure MaPacket where
  ver : BitVec 8
  reply : BitVec 8
  cmd : BitVec 16
  num : BitVec 16
  payload : List (BitVec 8)
  fits : 8 + payload.length < 2 ^ 16

def highByte (v : BitVec 16) : BitVec 8 := BitVec.ofNat 8 (v.toNat / 256)

def lowByte (v : BitVec 16) : BitVec 8 := BitVec.ofNat 8 v.toNat

/-- Two bytes in network order, as `ntohs` reads them. -/
def ntohs (pkt : ℕ → BitVec 8) (i : ℕ) : BitVec 16 :=
  BitVec.ofNat 16 ((pkt i).toNat * 256 + (pkt (i + 1)).toNat)

/-- `struct pkt_header` and the payload. -/
def MaPacket.encode (p : MaPacket) : List (BitVec 8) :=
  [p.ver, p.reply, highByte p.cmd, lowByte p.cmd, highByte p.num, lowByte p.num,
    highByte (BitVec.ofNat 16 (8 + p.payload.length)), lowByte (BitVec.ofNat 16 (8 + p.payload.length))] ++
    p.payload

/-- What the `switch` of `ma_cmd_parser` works on. -/
structure MaCommand where
  cmd : BitVec 16
  num : BitVec 16
  data : List (BitVec 8)

def MaPacket.command (p : MaPacket) : MaCommand := ⟨p.cmd, p.num, p.payload⟩

/-- `VPU_BUFSIZE` -/
def vpuBufsize : ℕ := 2048

/-- `header->num = ntohs(header->num);` in the buffer. -/
def swapNum (pkt : ℕ → BitVec 8) (left : ℕ) : ℕ → BitVec 8 :=
  blit pkt (left + 4) [pkt (left + 5), pkt (left + 4)]

/-- `data_len = ntohs(header->len) - header_len;` -/
def maDataLen (pkt : ℕ → BitVec 8) (left : ℕ) : BitVec 32 := (ntohs pkt (left + 6)).setWidth 32 - 8

/-- The loop of `ma_cmd_parser`: the commands that it executes, and the buffer behind it. -/
def maLoop (pkt : ℕ → BitVec 8) (left : ℕ) (leftLen : BitVec 32) :
    Option (List MaCommand × (ℕ → BitVec 8)) :=
  if 8 ≤ leftLen then
    if left + 8 ≤ vpuBufsize then
      let dataLen := maDataLen pkt left
      let command := ⟨ntohs pkt (left + 2), ntohs pkt (left + 4), window pkt (left + 8) dataLen.toNat⟩
      match maLoop (swapNum pkt left) (left + 8 + dataLen.toNat) (leftLen - 8 - dataLen) with
      | none => none
      | some (rest, pkt) => some (command :: rest, pkt)
    else none
  else some ([], pkt)
termination_by vpuBufsize - left

/-- `ma_cmd_parser` -/
def maCmdParser (pkt : ℕ → BitVec 8) (pktLen : BitVec 32) : Option (List MaCommand × (ℕ → BitVec 8)) :=
  maLoop pkt 0 pktLen

/-- `conn_ma` on what its successive reads return. -/
def connMa (pkt : ℕ → BitVec 8) : List (List (BitVec 8)) → Option (List MaCommand)
  | [] => some []
  | chunk :: chunks =>
    match maCmdParser (blit pkt 0 chunk) (BitVec.ofNat 32 chunk.length) with
    | none => none
    | some (commands, pkt) => (connMa pkt chunks).map (commands ++ ·)

/-- The commands whose handler gets `data` and `data_len`: `RELOAD`, `SOFTWARE_STATUS`, `SYSLOG_LEVEL` and
`DEBUG_MASK`. -/
def takesData (cmd : BitVec 16) : Prop := cmd = 23 ∨ cmd = 14 ∨ cmd = 32 ∨ cmd = 34

instance (cmd : BitVec 16) : Decidable (takesData cmd) := inferInstanceAs (Decidable (_ ∨ _))

/-- What the loop of `ma_cmd_parser` keeps from turn to turn: the memory from the first received byte on,
where `left` points, and `left_len`. -/
structure MaCursor where
  pkt : ℕ → BitVec 8
  left : ℕ
  leftLen : BitVec 32

def MaCursor.more (c : MaCursor) : Prop := 8 ≤ c.leftLen

/-- One turn, in whatever memory `left` points to. -/
def MaCursor.turn (c : MaCursor) : MaCursor where
  pkt := swapNum c.pkt c.left
  left := c.left + 8 + (maDataLen c.pkt c.left).toNat
  leftLen := c.leftLen - 8 - maDataLen c.pkt c.left

end Vpu.Model.Core
