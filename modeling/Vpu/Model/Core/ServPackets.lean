import Vpu.ToMathlib.Blit
import Vpu.ToMathlib.Tlv

/-! # The packets that `conn_serv.c` sends

`vpu_fill_info` writes one TLV; the builders call it with a pointer that moves by the lengths it
returns. Three of them leave room for an outer TLV and fill in its length behind the inner ones, and all
fill in the length of the header last. The buffer is the memory from the packet's first byte on.
-/

namespace Vpu.Model.Core

open Blit Tlv

/-- `htons`, as the variable lies in memory. -/
def htons (v : BitVec 16) : List (BitVec 8) := toBE 2 v.toNat

/-- `htonl` -/
def htonl (v : BitVec 32) : List (BitVec 8) := toBE 4 v.toNat

/-- `htobe64` -/
def htobe64 (v : BitVec 64) : List (BitVec 8) := toBE 8 v.toNat

/-- `vpu_fill_info(pkt, info, len, type)` -/
def vpuFillInfo (mem : ℕ → BitVec 8) (pkt : ℕ) (info : ℕ → BitVec 8) (len type : BitVec 16) :
    (ℕ → BitVec 8) × BitVec 16 :=
  let mem := blit mem pkt (htons type)
  let mem := blit mem (pkt + 2) (htons len)
  (blit mem (pkt + 4) (window info 0 len.toNat), len + 4)

/-- The arguments of a call of `vpu_fill_info`: the type, and the bytes of a variable whose size is the length. -/
structure VpuInfo where
  type : BitVec 16
  info : List (BitVec 8)
deriving DecidableEq, Repr

/-- Calls one behind the other, from `payload + payloadLen` on; `payload_len` adds up what they return. -/
def fillInfos (mem : ℕ → BitVec 8) (payload : ℕ) (payloadLen : BitVec 16) :
    List VpuInfo → (ℕ → BitVec 8) × BitVec 16
  | [] => (mem, payloadLen)
  | i :: infos =>
    let filled := vpuFillInfo mem (payload + payloadLen.toNat) (i.info.getD · 0) (BitVec.ofNat 16 i.info.length) i.type
    fillInfos filled.1 payload (payloadLen + filled.2) infos

/-- `ver`, `reply`, `cmd` and `num` of `struct pkt_header`. -/
def fillHeader (mem : ℕ → BitVec 8) (reply ver : BitVec 8) (cmd num : BitVec 16) : ℕ → BitVec 8 :=
  let mem := blit mem 1 [reply]
  let mem := blit mem 0 [ver]
  let mem := blit mem 2 (htons cmd)
  blit mem 4 (htons num)

/-- The body of the first three builders: an outer TLV of this type around the infos. -/
def fillNested (mem : ℕ → BitVec 8) (cmd num type : BitVec 16) (infos : List VpuInfo) :
    (ℕ → BitVec 8) × BitVec 32 :=
  let mem := fillHeader mem 0 1 cmd num
  let (mem, payloadLen) := fillInfos mem (8 + 4) 0 infos
  let mem := blit mem 8 (htons type)
  let mem := blit mem (8 + 2) (htons payloadLen)
  let len : BitVec 32 := payloadLen.setWidth 32 + 4 + 8
  (blit mem 6 (htons (len.setWidth 16)), len)

/-- `vpu_fill_regsguard_packet`; `server_ip` is given by its characters. -/
def vpuFillRegsguardPacket (mem : ℕ → BitVec 8) (num : BitVec 16) (pid : BitVec 32) (sn : BitVec 16)
    (vpuId : BitVec 32) (serverIp : List (BitVec 8)) : (ℕ → BitVec 8) × BitVec 32 :=
  fillNested mem 16 num 1 [⟨2, htonl pid⟩, ⟨3, htonl (sn.setWidth 32)⟩, ⟨4, htonl vpuId⟩, ⟨5, serverIp⟩]

/-- `vpu_fill_alive_packet`, whatever `get_status` returns. -/
def vpuFillAlivePacket (mem : ℕ → BitVec 8) (num : BitVec 16) (status : BitVec 8) : (ℕ → BitVec 8) × BitVec 32 :=
  fillNested mem 5 num 4 [⟨1, htons (status.setWidth 16)⟩]

/-- `vpu_fill_regma_packet` -/
def vpuFillRegmaPacket (mem : ℕ → BitVec 8) (num : BitVec 16) (pid : BitVec 32) (sn : BitVec 16) :
    (ℕ → BitVec 8) × BitVec 32 :=
  fillNested mem 16 num 2 [⟨1, htonl pid⟩, ⟨2, htonl (sn.setWidth 32)⟩]

/-- `all_count_t` -/
structure AllCount where
  pkts : BitVec 64
  lostPkts : BitVec 64
  voicePkts : BitVec 64
  otherPkts : BitVec 64
  callStart : BitVec 64
  callEnd : BitVec 64
  callTimeout : BitVec 64
  fileOk : BitVec 64
  fileFail : BitVec 64
  faxLost : BitVec 64
  faxEnqueue : BitVec 64
  faxDequeue : BitVec 64
  faxYes : BitVec 64
  faxNo : BitVec 64
deriving DecidableEq, Repr

/-- The fields as they lie in memory behind the calls of `htobe64`. -/
def AllCount.bytes (c : AllCount) : List (BitVec 8) :=
  htobe64 c.pkts ++ htobe64 c.lostPkts ++ htobe64 c.voicePkts ++ htobe64 c.otherPkts ++ htobe64 c.callStart ++
    htobe64 c.callEnd ++ htobe64 c.callTimeout ++ htobe64 c.fileOk ++ htobe64 c.fileFail ++ htobe64 c.faxLost ++
    htobe64 c.faxEnqueue ++ htobe64 c.faxDequeue ++ htobe64 c.faxYes ++ htobe64 c.faxNo

/-- `g_counter_field_arrays` -/
def counterFieldArrays : List (String × ℕ) :=
  [("pkts_all", 8), ("pkts_lost", 8), ("pkts_voice", 8), ("pkts_other", 8), ("call_start", 8), ("call_end", 8),
    ("call_timeout", 8), ("file_ok", 8), ("file_fail", 8), ("fax_lost", 8), ("fax_enqueue", 8), ("fax_dequeue", 8),
    ("fax_yes", 8), ("fax_no", 8)]

/-- `ma_cmd_get_counter` at the time `countTime`, up to its `write` of `pkt_len` bytes. -/
def maCmdGetCounter (mem : ℕ → BitVec 8) (sn : BitVec 16) (countTime : BitVec 64) (totalCount : AllCount) :
    (ℕ → BitVec 8) × BitVec 16 :=
  let mem := fillHeader mem 1 1 19 sn
  let (mem, pktLen) := fillInfos mem 0 8 [⟨2, htons 1⟩, ⟨1000, htobe64 countTime⟩, ⟨3, totalCount.bytes⟩]
  (blit mem 6 (htons pktLen), pktLen)

end Vpu.Model.Core
